/-
Bulk rendering against rendering packet by packet: a row of columns shows what the packet shows where
the first descriptor of each name that is read decides, and what a column holds is what the packet's
value is made of.
-/
import Wiry.Report.Bulk

set_option autoImplicit false

namespace Wiry.Report

open Columnar
open Packet (Bytes LayerSpan ProtoId FieldDesc Registry)
open Show (render_flags bits_from Named)

section

variable (R : Registry) {Item τ : Type} (T : Tables Item)

/-- What the tables of the layers keep to: the descriptors of a name agree on its flags, a field with a
scale is a number, and the names of flags, enumerations and parsed regions are apart. -/
structure Regular : Prop where
  one_flags : ∀ {p field names}, flag_names R T p field = some names →
    ∀ framed, ∀ f ∈ R.fields_of p framed, f.name.toList = field → f.kind = .Flags ∧ T.flags f = names
  scaled_uint : ∀ {p field}, scale R T p field ≠ 0 →
    ∀ framed, ∀ f ∈ R.fields_of p framed, f.name.toList = field → f.kind = .Uint
  no_plus : ∀ f, ∀ n ∈ T.flags f, '+' ∉ n
  enumerated_apart : ∀ {p field}, enumerated R T p field = true →
    flag_names R T p field = none ∧ ¬parsed T p field ∧ field.head? ≠ some '_'
  parsed_apart : ∀ {p field}, parsed T p field → flag_names R T p field = none ∧ field.head? ≠ some '_'
  fields_start : ∀ {p field}, field ∈ all_field_names R p →
    field ≠ [] ∧ field.head? ≠ some '%' ∧ field ∉ sections ∧ T.own field = false
  name_bytes : ∀ {p}, flag_names R T p NAME = none ∧ ¬parsed T p NAME ∧
    ∀ framed, ∀ f ∈ R.fields_of p framed, f.name.toList = NAME → f.kind = .Bytes

variable (link : ProtoId)

/-- The descriptor a column reads: the first of the name, where it is active. -/
def first_field (buf : Bytes) (l : ℕ) (p : ProtoId) (field : Text) : Option FieldDesc :=
  let pkt := Packet.dissect R buf link
  ((R.fields_of p (0 < pkt.framing l)).find? (·.name == String.ofList field)).filter
    (·.is_active (pkt.header l))

/-- What a frame holds of a layer where a column answers for the field: the first descriptor of the name
is active if one of the name is, and is not where Python hides the name; each bit of a flags field that
is set has a name of its own; neither a field with a scale nor a list of bare values nor a field called
`name` is there. -/
structure Answers (buf : Bytes) (l : ℕ) (p : ProtoId) (field : Text) : Prop where
  first : ¬parsed T p field → field.head? ≠ some '_' →
    first_field R link buf l p field =
      (Packet.dissect R buf link).active_field R l (String.ofList field)
  hidden : field.head? = some '_' → first_field R link buf l p field = none
  named : ∀ names, flag_names R T p field = some names → field.head? ≠ some '_' →
    ∀ f ∈ first_field R link buf l p field,
      Named (BitVec.ofNat 64 (Packet.read_uint ((Packet.dissect R buf link).header l) f)) names
  unscaled : ¬parsed T p field → flag_names R T p field = none → field.head? ≠ some '_' →
    scale R T p field ≠ 0 → first_field R link buf l p field = none
  listed : parsed T p field → T.scalar_list p = true →
    options_at T.parsers buf (Packet.dissect_spans R.layers buf link) l = some []
  unnamed : field ≠ NAME

variable {R T link}

/-! ## Names and places -/

theorem Tables.by_name_name (T : Tables Item) (p : ProtoId) : T.by_name (T.name p) = some p :=
  (T.by_name_iff _ p).2 rfl

/-- The first occurrence of a name. -/
theorem occurrence_at_one (layer : Text) (names : List Text) :
    occurrence_at layer names 1 = names.findIdx? fun name => name = layer := by
  induction names with
  | nil => rfl
  | cons name names ih =>
    rw [occurrence_at, List.findIdx?_cons, ih]
    by_cases hname : name = layer
    · simp [hname]
    · simp [hname]

/-- The first layer of a name is the first of its protocol. -/
theorem layer_at_first {layer : Text} {p : ProtoId} (hp : T.by_name layer = some p)
    (spans : List LayerSpan) (field : Text) :
    layer_at R T (spans.map fun s => T.name s.proto) (some layer) 1 field =
      spans.findIdx? fun s => s.proto = p := by
  have hname : ∀ s : LayerSpan, T.name s.proto = layer ↔ s.proto = p := by
    intro s
    rw [← T.by_name_iff, hp, Option.some.injEq, eq_comm]
  unfold layer_at
  dsimp only
  rw [occurrence_at_one, List.findIdx?_map]
  simp only [Function.comp_def, hname]

/-- The names of a layer are those of its fields, framed or not. -/
theorem mem_all_field_names {p : ProtoId} {field : Text} :
    field ∈ all_field_names R p ↔ ∃ framed, ∃ f ∈ R.fields_of p framed, f.name.toList = field := by
  unfold all_field_names
  dsimp only
  rw [List.mem_append, List.mem_filter]
  constructor
  · rintro (hplain | ⟨hframed, -⟩)
    · obtain ⟨f, hf, heq⟩ := List.mem_map.1 hplain
      exact ⟨false, f, hf, heq⟩
    · obtain ⟨f, hf, heq⟩ := List.mem_map.1 hframed
      exact ⟨true, f, hf, heq⟩
  · rintro ⟨framed, f, hf, rfl⟩
    by_cases hplain : f.name.toList ∈ (R.fields_of p false).map fun f => f.name.toList
    · exact .inl hplain
    · right
      cases framed with
      | false => exact absurd (List.mem_map_of_mem hf) hplain
      | true => exact ⟨List.mem_map_of_mem hf, by simpa using hplain⟩

/-- A name a column can carry is resolved. -/
theorem resolve_of_mem {p : ProtoId} {field : Text} (h : field ∈ all_field_names R p) :
    ∃ r, FieldRef.resolve R p (String.ofList field) = some r := by
  obtain ⟨framed, f, hf, rfl⟩ := mem_all_field_names.1 h
  have hfound : ((R.fields_of p framed).find? (·.name == String.ofList f.name.toList)).isSome = true := by
    rw [List.find?_isSome]
    exact ⟨f, hf, by simp⟩
  unfold FieldRef.resolve
  dsimp only
  rw [dif_pos]
  · exact ⟨_, rfl⟩
  · cases framed with
    | false => exact .inl hfound
    | true => exact .inr hfound

/-! ## The descriptor that is read -/

/-- What is read of a descriptor that is kept. -/
theorem map_filter_eq_bind {α β : Type} (o : Option α) (keep : α → Bool) (g : α → β) :
    (o.filter keep).map g = o.bind fun a => if keep a then some (g a) else none := by
  cases o with
  | none => rfl
  | some a =>
    rw [Option.bind_some, Option.filter_some]
    split
    · rfl
    · rfl

/-- A field's number fits 64 bits. -/
theorem read_uint_lt (hdr : Bytes) (f : FieldDesc) : Packet.read_uint hdr f < 2 ^ 64 := by
  have hbits : ∀ buf off len, Packet.read_bits buf off len < 2 ^ 64 := by
    intro buf off len
    unfold Packet.read_bits
    split
    · exact Nat.two_pow_pos 64
    -- Whole octets are at most eight; any other width is cut to the word.
    · split
      · rename_i hwhole
        apply Nat.lt_pow_two_of_testBit
        intro j hj
        rw [Bits.testBit_gather, if_neg]
        have hlen : (Packet.slice buf (off / 8) (off / 8 + len / 8)).length ≤ len / 8 := by
          unfold Packet.slice
          simp
          omega
        omega
      · exact Nat.mod_lt _ (Nat.two_pow_pos 64)
  unfold Packet.read_uint Packet.read_in
  split
  · exact hbits _ _ _
  · split
    · exact hbits _ _ _
    · exact Nat.two_pow_pos 64

variable {buf : Bytes} {p : ProtoId} {field : Text} {l : ℕ} {r : FieldRef}

/-- The span of a layer that was found. -/
theorem span_found (hl : find_layer (Packet.dissect R buf link) p = some l) :
    ∃ s, (Packet.dissect_spans R.layers buf link)[l]? = some s ∧ s.proto = p ∧
      (Packet.dissect R buf link).header l = s.header buf := by
  obtain ⟨s, hs, hproto⟩ := find_layer_span hl
  refine ⟨s, hs, hproto, ?_⟩
  unfold Packet.header
  rw [hs]
  rfl

theorem col_cell_absent (hl : find_layer (Packet.dissect R buf link) p = none) (r : FieldRef) :
    col_cell R T link (.of (.Rendered p r)) buf = .Null ∧ col_cell R T link (.of (.Options p)) buf = .Null ∧
      col_cell R T link (.of (.Field p r)) buf = .Null := by
  have hnone : ((Packet.dissect_spans R.layers buf link).findIdx? fun s => s.proto = p) = none := hl
  unfold col_cell cell
  dsimp only
  rw [hnone]
  exact ⟨rfl, rfl, rfl⟩

theorem layer_found (hl : find_layer (Packet.dissect R buf link) p = some l) :
    ((Packet.dissect_spans R.layers buf link).findIdx? fun s => s.proto = p) = some l := hl

/-! ## Cells -/

section Cells

variable (hl : find_layer (Packet.dissect R buf link) p = some l)
  (hr : FieldRef.resolve R p (String.ofList field) = some r)

include hl hr

theorem col_cell_field : col_cell R T link (.of (.Field p r)) buf =
    .of_value ((first_field R link buf l p field).map (decode ((Packet.dissect R buf link).header l))) := by
  obtain ⟨s, hs, -, hheader⟩ := span_found hl
  unfold col_cell cell decode_at decode_span first_field
  dsimp only
  rw [layer_found hl, Option.bind_some, hs, Option.bind_some, resolve_at_span hr, hheader,
    map_filter_eq_bind]
  rfl

theorem names_at_field {f : FieldDesc} (hf : first_field R link buf l p field = some f) :
    names_at R T link (.of (.Field p r)) buf = T.flags f := by
  have hat : r.at_span (Packet.dissect_spans R.layers buf link) l = some f := by
    rw [resolve_at_span hr]
    exact (Option.filter_eq_some_iff.1 hf).1
  unfold names_at
  dsimp only
  rw [layer_found hl, Option.bind_some, hat]
  rfl

omit hr in
theorem col_cell_options : col_cell R T link (.of (.Options p)) buf =
    (options_at T.parsers buf (Packet.dissect_spans R.layers buf link) l).elim .Null .Opts := by
  unfold col_cell cell
  dsimp only
  rw [layer_found hl, Option.bind_some]

/-- A rendered cell holds a text. -/
theorem col_cell_rendered : col_cell R T link (.of (.Rendered p r)) buf =
    ((first_field R link buf l p field).map fun f =>
      String.ofList (rendered T ((Packet.dissect R buf link).header l) f)).elim .Null .Text := by
  obtain ⟨s, hs, -, hheader⟩ := span_found hl
  unfold col_cell cell rendered_at first_field
  dsimp only
  rw [layer_found hl, Option.bind_some, hs, Option.bind_some, resolve_at_span hr, hheader,
    map_filter_eq_bind]
  rfl

end Cells

/-! ## A packet's value -/

/-- A field's name that a view passes on: neither its own, nor a section of the records. -/
structure Open (T : Tables Item) (field : Text) : Prop where
  unnamed : field ≠ NAME
  not_own : T.own field = false
  no_section : field ∉ sections

theorem Regular.open_of (hreg : Regular R T) (hfield : field ∈ all_field_names R p) (hname : field ≠ NAME) :
    Open T field := by
  obtain ⟨-, -, hsection, hown⟩ := hreg.fields_start hfield
  exact ⟨hname, hown, hsection⟩

theorem layer_at_found {layer : Text} (hp : T.by_name layer = some p) (field : Text) :
    layer_at R T ((Packet.dissect R buf link).spans.map fun s => T.name s.proto) (some layer) 1 field =
      find_layer (Packet.dissect R buf link) p := layer_at_first hp _ field

/-- No class in Python answers for a layer of the frame. -/
def Unmodelled (R : Registry) (T : Tables Item) (link : ProtoId) (buf : Bytes) : Prop :=
  ∀ i, modelled_at R T link buf i = none

theorem pkt_value_absent {layer : Text} (hp : T.by_name layer = some p)
    (hl : find_layer (Packet.dissect R buf link) p = none) (raw : Bool) :
    pkt_value R T link buf (some layer) 1 field raw = .ok none := by
  unfold pkt_value
  dsimp only
  rw [layer_at_found hp, hl]

/-- A packet's value of a layer that is there and that the engine answers for: by its name where it is
enumerated and shown. -/
theorem pkt_value_found {layer : Text} (hplain : Unmodelled R T link buf) (hp : T.by_name layer = some p)
    (hl : find_layer (Packet.dissect R buf link) p = some l) (raw : Bool) :
    pkt_value R T link buf (some layer) 1 field raw =
      if !raw ∧ enumerated R T p field then
        match (Packet.dissect R buf link).active_field R l (String.ofList field) with
        | some f => .ok (some (.str (rendered T ((Packet.dissect R buf link).header l) f)))
        | none => layer_view R T link buf l field
      else layer_view R T link buf l field := by
  obtain ⟨s, hs, hproto, -⟩ := span_found hl
  have hspan : (Packet.dissect R buf link).spans[l]? = some s := hs
  unfold pkt_value
  dsimp only
  rw [layer_at_found hp, hl]
  dsimp only
  rw [hplain l]
  dsimp only
  rewrite [hspan, Option.any_some, hproto]
  rfl

section View

variable (hl : find_layer (Packet.dissect R buf link) p = some l)

include hl

/-- The view's own name, of a field that is called so. -/
theorem layer_view_name : layer_view R T link buf l NAME = .ok (some (.str (T.name p))) := by
  obtain ⟨s, hs, rfl, -⟩ := span_found hl
  have hspan : (Packet.dissect R buf link).spans[l]? = some s := hs
  unfold layer_view
  dsimp only
  rw [hspan]
  exact if_pos rfl

theorem layer_view_hidden (hopen : Open T field) (hhead : field.head? = some '_') :
    layer_view R T link buf l field = .ok none := by
  obtain ⟨s, hs, -, -⟩ := span_found hl
  have hspan : (Packet.dissect R buf link).spans[l]? = some s := hs
  unfold layer_view
  dsimp only
  rw [hspan]
  dsimp only
  rw [if_neg hopen.unnamed, if_neg (by simp [hopen.not_own]), if_pos hhead]

/-- A parsed field has its items. -/
theorem options_found (hparsed : parsed T p field) :
    ∃ items, options_at T.parsers buf (Packet.dissect_spans R.layers buf link) l = some items := by
  obtain ⟨s, hs, hproto, -⟩ := span_found hl
  obtain ⟨parse, hparse⟩ := Option.isSome_iff_exists.1 hparsed.2
  unfold options_at
  rw [hs, Option.bind_some, hproto, hparse]
  exact ⟨_, rfl⟩

/-- An open field of parsed items is shown as those items, or as their values where the layer lists
scalars. -/
theorem layer_view_parsed (hopen : Open T field) (hparsed : parsed T p field) (hhead : field.head? ≠ some '_') {items : List Item}
    (hitems : options_at T.parsers buf (Packet.dissect_spans R.layers buf link) l = some items) :
    layer_view R T link buf l field =
      .ok (some (if T.scalar_list p ∧ items ≠ [] then .values items else .items items)) := by
  obtain ⟨s, hs, hproto, -⟩ := span_found hl
  have hspan : (Packet.dissect R buf link).spans[l]? = some s := hs
  have hread : options_at T.parsers (Packet.dissect R buf link).buf (Packet.dissect R buf link).spans l =
      some items := hitems
  unfold layer_view
  dsimp only
  rw [hspan]
  dsimp only
  rw [if_neg hopen.unnamed, if_neg (by simp [hopen.not_own]), if_neg hhead, hproto, if_pos hparsed.1, hread]

/-- A name that is neither hidden nor parsed is read of the descriptor that is active. -/
theorem layer_view_field (hopen : Open T field) (hparsed : ¬parsed T p field)
    (hhead : field.head? ≠ some '_') :
    layer_view R T link buf l field =
      match (Packet.dissect R buf link).active_field R l (String.ofList field) with
      | none => .ok none
      | some f =>
        match flag_names R T p field with
        | some names =>
          match (decode ((Packet.dissect R buf link).header l) f).as_uint with
          | some n => .ok (some (.flags n names))
          | none => .error .raised
        | none =>
          if scale R T p field = 0 then
            .ok (some (value_to_py (T.flags f) (decode ((Packet.dissect R buf link).header l) f)))
          else
            match decode ((Packet.dissect R buf link).header l) f with
            | .Uint n => .ok (some (.quotient n (scale R T p field)))
            | _ => .error .raised := by
  -- The layer is there, and its field is no parsed one.
  obtain ⟨s, hs, hproto, -⟩ := span_found hl
  have hspan : (Packet.dissect R buf link).spans[l]? = some s := hs
  have hitems : (if field = (T.parsers.parsed_field_name p).toList then
      options_at T.parsers (Packet.dissect R buf link).buf (Packet.dissect R buf link).spans l
      else none) = none := by
    split
    · rename_i hname
      have hnone : T.parsers.parse p = none := by
        by_contra hsome
        exact hparsed ⟨hname, Option.isSome_iff_ne_none.2 hsome⟩
      unfold options_at
      rw [hspan, Option.bind_some, hproto, hnone]
      rfl
    · rfl
  -- So the view reads the field by the layer's own description.
  unfold layer_view
  dsimp only
  rw [hspan]
  dsimp only
  rw [if_neg hopen.unnamed, if_neg (by simp [hopen.not_own]), if_neg hhead, hproto, hitems,
    if_neg hopen.no_section]
  cases (Packet.dissect R buf link).active_field R l (String.ofList field) with
  | none => rfl
  | some f => rfl

end View

/-! ## A column's value -/

/-- A rendered column resolves for every field of its layer. -/
theorem resolve_key_shown {layer : Text} (hp : T.by_name layer = some p)
    (hfield : field ∈ all_field_names R p) :
    ∃ r, FieldRef.resolve R p (String.ofList field) = some r ∧
      resolve_key R T (layer, '%' :: field) = some (.of (.Rendered p r)) := by
  obtain ⟨r, hr⟩ := resolve_of_mem hfield
  have hframe : layer ≠ FRAME := by
    rintro rfl
    rw [T.frame_free] at hp
    cases hp
  refine ⟨r, hr, ?_⟩
  unfold resolve_key resolve_spec
  dsimp only
  rw [if_neg hframe, hp, Option.bind_some, String.toList_ofList]
  show ((FieldRef.resolve R p (String.ofList field)).map (ColSpec.Rendered p)).map Col.of = _
  rw [hr]
  rfl

/-- So does a plain one, to the options where the field is parsed. -/
theorem resolve_key_plain {layer : Text} (hp : T.by_name layer = some p)
    (hfield : field ∈ all_field_names R p) (hne : field ≠ []) (hhead : field.head? ≠ some '%') :
    ∃ r, FieldRef.resolve R p (String.ofList field) = some r ∧
      resolve_key R T (layer, field) =
        some (.of (if parsed T p field then .Options p else .Field p r)) := by
  obtain ⟨r, hr⟩ := resolve_of_mem hfield
  have hframe : layer ≠ FRAME := by
    rintro rfl
    rw [T.frame_free] at hp
    cases hp
  refine ⟨r, hr, ?_⟩
  -- A name without the percent sign is a plain column.
  cases field with
  | nil => exact absurd rfl hne
  | cons c field =>
    have hname : String.ofList (c :: field) = T.parsers.parsed_field_name p ↔
        c :: field = (T.parsers.parsed_field_name p).toList := by
      rw [← String.toList_inj, String.toList_ofList]
    unfold resolve_key resolve_spec
    dsimp only
    rw [if_neg hframe, hp, Option.bind_some, String.toList_ofList]
    split
    · rename_i bare heq
      cases heq
      exact absurd rfl hhead
    · rename_i heq
      cases heq
    · rw [hr]
      by_cases hparsed : parsed T p (c :: field)
      · rw [if_pos ⟨hname.2 hparsed.1, hparsed.2⟩, if_pos hparsed]
        rfl
      · rw [if_neg fun h => hparsed ⟨hname.1 h.1, h.2⟩, if_neg hparsed]
        rfl

/-- Every column that was needed is among those resolved. -/
theorem lookup_resolved {need : List Key} {cols : Cols} (h : resolve R T need = some cols) {k : Key}
    (hk : k ∈ need) : ∃ c, resolve_key R T k = some c ∧ lookup cols k = .ok c := by
  induction need generalizing cols with
  | nil => cases hk
  | cons k' need ih =>
    unfold resolve at h
    rw [List.mapM_cons] at h
    obtain ⟨x, hx, h⟩ := Option.bind_eq_some_iff.1 h
    obtain ⟨rest, hrest, h⟩ := Option.bind_eq_some_iff.1 h
    obtain ⟨c, hc, rfl⟩ := Option.map_eq_some_iff.1 hx
    cases h
    -- The key's own column, or one behind it.
    by_cases heq : k' = k
    · subst heq
      refine ⟨c, hc, ?_⟩
      unfold lookup
      simp
    · have hmem : k ∈ need := (List.mem_cons.1 hk).resolve_left (Ne.symm heq)
      obtain ⟨c', hc', hlookup⟩ := ih hrest hmem
      refine ⟨c', hc', ?_⟩
      unfold lookup at hlookup ⊢
      rw [List.find?_cons]
      simpa [heq] using hlookup

/-- The flag names of a column that was asked for are the field's. -/
theorem flags_of_asked {need : List Key} {cols : Cols} (h : resolve R T need = some cols)
    {layer : Text} (hp : T.by_name layer = some p) (hk : (layer, field) ∈ need) :
    flags_of R T cols layer field = flag_names R T p field := by
  obtain ⟨c, -, hlookup⟩ := lookup_resolved h hk
  have hany : (cols.any fun c => c.1 = (layer, field)) = true := by
    unfold lookup at hlookup
    split at hlookup
    · rename_i c' hfound
      have hkey := List.find?_some hfound
      exact List.any_eq_true.2 ⟨c', List.mem_of_find?_eq_some hfound, hkey⟩
    · cases hlookup
  unfold flags_of
  rw [if_pos hany, hp, Option.bind_some]

theorem flags_of_none {cols : Cols} {layer : Text} (hp : T.by_name layer = some p)
    (h : flag_names R T p field = none) : flags_of R T cols layer field = none := by
  unfold flags_of
  rw [hp, Option.bind_some, h, ite_self]

/-- What is made of a cell of a field. -/
def of_cell (flags : Option (List Text)) (v : Option (PyValue Item)) :
    Except Raised (Option (PyValue Item)) :=
  match v with
  | none => .ok none
  | some v =>
    match flags with
    | none => .ok (some v)
    | some names => (from_str v names).map some

theorem of_cell_none (v : Option (PyValue Item)) : of_cell none v = .ok v := by
  cases v with
  | none => rfl
  | some v => rfl

/-- What a flags field is where it is read. -/
theorem Regular.flags_found (hreg : Regular R T) {names : List Text} (hflags : flag_names R T p field = some names) {f : FieldDesc}
    (hf : first_field R link buf l p field = some f) : f.kind = .Flags ∧ T.flags f = names := by
  have hfound := (Option.filter_eq_some_iff.1 hf).1
  have hname := List.find?_some hfound
  refine hreg.one_flags hflags _ f (List.mem_of_find?_eq_some hfound) ?_
  rw [eq_of_beq hname, String.toList_ofList]

/-- What is active is a descriptor of the name. -/
theorem active_name (hl : find_layer (Packet.dissect R buf link) p = some l) {f : FieldDesc}
    (hf : (Packet.dissect R buf link).active_field R l (String.ofList field) = some f) :
    (∃ framed, f ∈ R.fields_of p framed) ∧ f.name.toList = field := by
  obtain ⟨s, hs, hproto, -⟩ := span_found hl
  have hspan : (Packet.dissect R buf link).spans[l]? = some s := hs
  unfold Packet.active_field at hf
  rw [hspan] at hf
  have hname := List.find?_some hf
  rw [Bool.and_eq_true] at hname
  refine ⟨⟨_, hproto ▸ List.mem_of_find?_eq_some hf⟩, ?_⟩
  rw [eq_of_beq hname.2, String.toList_ofList]

/-- The first of the name is the one that is active, where it is active. -/
theorem active_of_first (hl : find_layer (Packet.dissect R buf link) p = some l) {f : FieldDesc}
    (hf : first_field R link buf l p field = some f) :
    (Packet.dissect R buf link).active_field R l (String.ofList field) = some f := by
  obtain ⟨s, hs, rfl, -⟩ := span_found hl
  have hspan : (Packet.dissect R buf link).spans[l]? = some s := hs
  obtain ⟨hfirst, hactive⟩ := Option.filter_eq_some_iff.1 hf
  unfold Packet.active_field
  rw [hspan]
  exact find_active_of_first hfirst hactive

/-- A read of what is neither hidden nor parsed does not raise, and gives something where a descriptor
is active. -/
theorem layer_view_isSome (hreg : Regular R T) (hl : find_layer (Packet.dissect R buf link) p = some l)
    (hopen : Open T field) (hparsed : ¬parsed T p field) (hhead : field.head? ≠ some '_') :
    (layer_view R T link buf l field).map Option.isSome =
      .ok ((Packet.dissect R buf link).active_field R l (String.ofList field)).isSome := by
  rw [layer_view_field hl hopen hparsed hhead]
  cases hf : (Packet.dissect R buf link).active_field R l (String.ofList field) with
  | none => rfl
  | some f =>
    -- A field that is there has a value: as flags, divided by its scale, or as it is.
    obtain ⟨⟨framed, hmem⟩, hname⟩ := active_name hl hf
    dsimp only
    cases hflags : flag_names R T p field with
    | some names =>
      have hkind := (hreg.one_flags hflags framed f hmem hname).1
      unfold decode
      rw [hkind]
      rfl
    | none =>
      dsimp only
      by_cases hscale : scale R T p field = 0
      · rw [if_pos hscale]
        rfl
      · have hkind := hreg.scaled_uint hscale framed f hmem hname
        rw [if_neg hscale]
        unfold decode
        rw [hkind]
        rfl

theorem bits_of_flags (hreg : Regular R T) {names : List Text} {f : FieldDesc} (hnames : T.flags f = names)
    (n : ℕ) (hn : n < 2 ^ 64) :
    bits_from (render_flags (BitVec.ofNat 64 n) names) names = some n ↔
      Named (BitVec.ofNat 64 n) names := by
  have hbits : (BitVec.ofNat 64 n).toNat = n := by
    rw [BitVec.toNat_ofNat, Nat.mod_eq_of_lt hn]
  have hiff := Show.bits_from_rendered_iff (hnames ▸ hreg.no_plus f) (BitVec.ofNat 64 n)
  rwa [hbits] at hiff

/-- What a column makes of the text of a flags field, its bits and what has none of a name dropped. -/
theorem of_cell_flags (hreg : Regular R T) (hl : find_layer (Packet.dissect R buf link) p = some l)
    (hr : FieldRef.resolve R p (String.ofList field) = some r) {names : List Text}
    (hflags : flag_names R T p field = some names) {f : FieldDesc}
    (hf : first_field R link buf l p field = some f) :
    ∃ bits, bits_from (render_flags
        (BitVec.ofNat 64 (Packet.read_uint ((Packet.dissect R buf link).header l) f)) names) names = some bits ∧
      of_cell (some names) (cell_to_py (names_at R T link (.of (.Field p r)) buf)
        (col_cell R T link (.of (.Field p r)) buf)) = .ok (some (.flags bits names)) := by
  obtain ⟨hkind, hnames⟩ := hreg.flags_found hflags hf
  have hdecode : decode ((Packet.dissect R buf link).header l) f =
      .Flags (Packet.read_uint ((Packet.dissect R buf link).header l) f) := by
    unfold decode
    rw [hkind]
  obtain ⟨bits, hbits⟩ : ∃ bits, bits_from (render_flags
      (BitVec.ofNat 64 (Packet.read_uint ((Packet.dissect R buf link).header l) f)) names) names =
        some bits :=
    -- the names were rendered without a plus sign, so the text splits back
    ⟨_, Show.bits_from_rendered (hnames ▸ hreg.no_plus f) _⟩
  refine ⟨bits, hbits, ?_⟩
  rw [col_cell_field hl hr, hf, names_at_field hl hr hf, Option.map_some, hdecode, hnames]
  show (from_str (.str (render_flags _ names)) names).map some = _
  unfold from_str
  dsimp only
  rw [hbits]
  rfl

/-- A packet's flags are the bits of the descriptor that is active. -/
theorem layer_view_flags (hreg : Regular R T) (hl : find_layer (Packet.dissect R buf link) p = some l)
    {names : List Text} (hflags : flag_names R T p field = some names) (hhead : field.head? ≠ some '_')
    (hopen : Open T field) :
    layer_view R T link buf l field =
      .ok (((Packet.dissect R buf link).active_field R l (String.ofList field)).map fun f =>
        .flags (Packet.read_uint ((Packet.dissect R buf link).header l) f) names) := by
  have hparsed : ¬parsed T p field := by
    intro hparsed
    rw [(hreg.parsed_apart hparsed).1] at hflags
    cases hflags
  rw [layer_view_field hl hopen hparsed hhead]
  cases hf : (Packet.dissect R buf link).active_field R l (String.ofList field) with
  | none => rfl
  | some f =>
    obtain ⟨⟨framed, hmem⟩, hname⟩ := active_name hl hf
    have hkind := (hreg.one_flags hflags framed f hmem hname).1
    rw [hflags]
    dsimp only
    unfold decode
    rw [hkind]
    rfl

section Columns

variable (hreg : Regular R T) {need : List Key} {cols : Cols} (hcols : resolve R T need = some cols)
  {layer : Text} (hp : T.by_name layer = some p) (hfield : field ∈ all_field_names R p)

include hreg hcols hp hfield

/-- The column of an enumerated field that is shown. -/
theorem col_value_shown (henum : enumerated R T p field = true)
    (hk : (layer, column_key R T layer field false) ∈ need) :
    ∃ r, FieldRef.resolve R p (String.ofList field) = some r ∧
      col_value R T link cols buf layer field false =
        .ok (cell_to_py [] (col_cell R T link (.of (.Rendered p r)) buf)) := by
  have hkey : column_key R T layer field false = '%' :: field := by
    unfold column_key
    rw [hp]
    simp [henum]
  rw [hkey] at hk
  obtain ⟨r, hr, hresolve⟩ := resolve_key_shown hp hfield
  obtain ⟨c, hc, hlookup⟩ := lookup_resolved hcols hk
  rw [hresolve] at hc
  cases hc
  refine ⟨r, hr, ?_⟩
  unfold col_value
  rw [hkey, hlookup, flags_of_none hp (hreg.enumerated_apart henum).1]
  exact of_cell_none _

variable (link buf) in
/-- The column of a field as it is. -/
theorem col_value_plain {raw : Bool} (hraw : raw = true ∨ enumerated R T p field = false)
    (hk : (layer, column_key R T layer field raw) ∈ need) :
    ∃ r, FieldRef.resolve R p (String.ofList field) = some r ∧
      ∃ c, c = Col.of (if parsed T p field then .Options p else .Field p r) ∧
        lookup cols (layer, field) = .ok c ∧
        col_value R T link cols buf layer field raw =
          of_cell (flag_names R T p field) (cell_to_py (names_at R T link c buf) (col_cell R T link c buf)) := by
  -- an enumerated field is asked for by its name only where its name is shown
  have hkey : column_key R T layer field raw = field := by
    unfold column_key
    rw [hp]
    obtain rfl | henum := hraw
    · rfl
    · simp [henum]
  rw [hkey] at hk
  obtain ⟨hne, hhead, -⟩ := hreg.fields_start hfield
  obtain ⟨r, hr, hresolve⟩ := resolve_key_plain hp hfield hne hhead
  obtain ⟨c, hc, hlookup⟩ := lookup_resolved hcols hk
  rw [hresolve] at hc
  cases hc
  refine ⟨r, hr, _, rfl, hlookup, ?_⟩
  unfold col_value
  rw [hkey, hlookup, flags_of_asked hcols hp hk]
  rfl

/-- Of a layer that is not there neither tells anything. -/
theorem value_eq_absent {raw : Bool} (hk : (layer, column_key R T layer field raw) ∈ need)
    (hl : find_layer (Packet.dissect R buf link) p = none) :
    col_value R T link cols buf layer field raw = pkt_value R T link buf (some layer) 1 field raw := by
  rw [pkt_value_absent hp hl]
  by_cases hshown : raw = false ∧ enumerated R T p field = true
  · obtain ⟨rfl, henum⟩ := hshown
    obtain ⟨r, -, hvalue⟩ := col_value_shown hreg hcols hp hfield henum hk
    rw [hvalue, (col_cell_absent hl r).1]
    rfl
  · obtain ⟨r, -, c, rfl, -, hvalue⟩ := col_value_plain link buf hreg hcols hp hfield
      (by simpa [Decidable.imp_iff_not_or] using hshown) hk
    rw [hvalue]
    split
    · rw [(col_cell_absent hl r).2.1]
      rfl
    · rw [(col_cell_absent hl r).2.2]
      rfl

section Found

variable (hplain : Unmodelled R T link buf) (hl : find_layer (Packet.dissect R buf link) p = some l)
  (hans : Answers R T link buf l p field)

include hplain hl hans

/-- An enumerated field is shown by the name the packet shows it by. -/
theorem value_eq_shown (henum : enumerated R T p field = true)
    (hk : (layer, column_key R T layer field false) ∈ need) :
    col_value R T link cols buf layer field false = pkt_value R T link buf (some layer) 1 field false := by
  have hopen := hreg.open_of hfield hans.unnamed
  obtain ⟨-, hparsed, hhead⟩ := hreg.enumerated_apart henum
  obtain ⟨r, hr, hvalue⟩ := col_value_shown hreg hcols hp hfield henum hk
  rw [pkt_value_found hplain hp hl, hvalue, col_cell_rendered hl hr, hans.first hparsed hhead, if_pos ⟨rfl, henum⟩]
  cases hactive : (Packet.dissect R buf link).active_field R l (String.ofList field) with
  | none =>
    dsimp only
    rw [layer_view_field hl hopen hparsed hhead, hactive]
    rfl
  | some f =>
    show Except.ok (some (PyValue.str (String.ofList _).toList)) = _
    rw [String.toList_ofList]

/-- A field as it is: items, nothing where Python hides the name, or what its descriptor holds. -/
theorem value_eq_plain {raw : Bool} (hraw : raw = true ∨ enumerated R T p field = false)
    (hk : (layer, column_key R T layer field raw) ∈ need) :
    col_value R T link cols buf layer field raw = pkt_value R T link buf (some layer) 1 field raw := by
  have hopen := hreg.open_of hfield hans.unnamed
  obtain ⟨r, hr, c, rfl, -, hvalue⟩ := col_value_plain link buf hreg hcols hp hfield hraw hk
  rw [pkt_value_found hplain hp hl, if_neg (by simpa [Decidable.imp_iff_not_or] using hraw), hvalue]
  -- Parsed items are shown as they are in both.
  by_cases hparsed : parsed T p field
  · obtain ⟨hflags, hhead⟩ := hreg.parsed_apart hparsed
    obtain ⟨items, hitems⟩ := options_found hl hparsed
    rw [if_pos hparsed, col_cell_options hl, hitems, hflags, layer_view_parsed hl hopen hparsed hhead hitems,
      if_neg]
    · rfl
    · rintro ⟨hlist, hne⟩
      rw [hans.listed hparsed hlist] at hitems
      exact hne (Option.some.inj hitems).symm
  rw [if_neg hparsed]
  -- A hidden field is empty in both.
  by_cases hhead : field.head? = some '_'
  · rw [col_cell_field hl hr, hans.hidden hhead, layer_view_hidden hl hopen hhead]
    rfl
  rw [layer_view_field hl hopen hparsed hhead, ← hans.first hparsed hhead]
  -- Otherwise the first field of the name is read, and flags are named alike.
  cases hf : first_field R link buf l p field with
  | none =>
    rw [col_cell_field hl hr, hf]
    rfl
  | some f =>
    cases hflags : flag_names R T p field with
    | none =>
      have hscale : scale R T p field = 0 := by
        by_contra hscale
        rw [hans.unscaled hparsed hflags hhead hscale] at hf
        cases hf
      rw [col_cell_field hl hr, hf, names_at_field hl hr hf]
      dsimp only
      rw [if_pos hscale]
      rfl
    | some names =>
      obtain ⟨hkind, hnames⟩ := hreg.flags_found hflags hf
      obtain ⟨bits, hbits, hcell⟩ := of_cell_flags hreg hl hr hflags hf
      have hread := (bits_of_flags hreg hnames _ (read_uint_lt _ f)).2 (hans.named names hflags hhead f hf)
      obtain rfl := Option.some.inj (hbits.symm.trans hread)
      rw [hcell]
      dsimp only
      unfold decode
      rw [hkind]
      rfl

end Found

/-- A column and a packet tell the same of a field the column answers for. -/
theorem value_eq {raw : Bool} (hplain : Unmodelled R T link buf) (hk : (layer, column_key R T layer field raw) ∈ need)
    (hans : ∀ l, find_layer (Packet.dissect R buf link) p = some l → Answers R T link buf l p field) :
    col_value R T link cols buf layer field raw = pkt_value R T link buf (some layer) 1 field raw := by
  cases hl : find_layer (Packet.dissect R buf link) p with
  | none => exact value_eq_absent hreg hcols hp hfield hk hl
  | some l =>
    by_cases hshown : raw = false ∧ enumerated R T p field = true
    · obtain ⟨rfl, henum⟩ := hshown
      exact value_eq_shown hreg hcols hp hfield hplain hl (hans l hl) henum hk
    · exact value_eq_plain hreg hcols hp hfield hplain hl (hans l hl)
        (by simpa [Decidable.imp_iff_not_or] using hshown) hk

end Columns

end

end Wiry.Report
