/-
Bulk reads against per-packet reads: they agree on every frame in whose header the field declared
first under the name is active, or none of that name is, and on no other.

`settled` is the condition on one frame and one field. Columns, filters and
indices are each the same function of the values it speaks of, so that each of
them agrees where the values do; the other direction reads the condition off a
query with a single test.
-/
import Wiry.Columnar.Columns

set_option autoImplicit false

namespace Wiry.Columnar

open Packet (Bytes LayerSpan ProtoId FieldDesc Registry)

/-! ## First declared, first active -/

/-- Where a field of that name is active in the header, the first declared under it is. -/
def first_decides (fields : List FieldDesc) (hdr : Bytes) (name : String) : Bool :=
  !(fields.any fun f => f.is_active hdr && f.name == name) ||
    (fields.find? (·.name == name)).any fun f => f.is_active hdr

/-- The first of a name is the first active of that name as soon as it is active. -/
theorem find_active_of_first {fields : List FieldDesc} {hdr : Bytes} {name : String}
    {f : FieldDesc} (hfirst : fields.find? (·.name == name) = some f)
    (hactive : f.is_active hdr = true) :
    (fields.find? fun g => g.is_active hdr && g.name == name) = some f := by
  induction fields with
  | nil => simp at hfirst
  | cons g fields ih =>
    cases hname : g.name == name with
    | true =>
      simp only [List.find?_cons_of_pos, hname, Option.some.injEq] at hfirst
      subst hfirst
      simp [hname, hactive]
    | false =>
      simp only [List.find?_cons, hname] at hfirst
      simp [hname, ih hfirst]

/-- What the two resolutions read of one header. -/
theorem first_read_of_decides {fields : List FieldDesc} {hdr : Bytes} {name : String}
    (h : first_decides fields hdr name = true) :
    ((fields.find? (·.name == name)).bind fun f =>
      if f.is_active hdr then some (decode hdr f) else none)
      = (fields.find? fun f => f.is_active hdr && f.name == name).map (decode hdr) := by
  unfold first_decides at h
  rw [Bool.or_eq_true] at h
  -- Either no active field has the name, or the first of that name is active.
  obtain hnone | hfirst := h
  · have hnot : (fields.find? fun f => f.is_active hdr && f.name == name) = none := by
      simpa using hnone
    rw [hnot]
    cases hf : fields.find? (·.name == name) with
    | none => rfl
    | some f =>
      have hmem := List.mem_of_find?_eq_some hf
      have hname := List.find?_some hf
      have hinactive : f.is_active hdr = false := by
        by_contra hactive
        have hf' := List.find?_eq_none.mp hnot f hmem
        -- an active field of the name contradicts there being none
        simp_all
      simp [hinactive]
  · rw [Option.any_eq_true] at hfirst
    obtain ⟨f, hf, hactive⟩ := hfirst
    rw [hf, find_active_of_first hf hactive]
    simp [hactive]

/-- Otherwise the first reads nothing, and the header has a value. -/
theorem first_read_of_not_decides {fields : List FieldDesc} {hdr : Bytes} {name : String}
    (h : first_decides fields hdr name = false) :
    ((fields.find? (·.name == name)).bind fun f =>
      if f.is_active hdr then some (decode hdr f) else none) = none ∧
      ∃ f, (fields.find? fun f => f.is_active hdr && f.name == name) = some f := by
  unfold first_decides at h
  rw [Bool.or_eq_false_iff, Bool.not_eq_false'] at h
  obtain ⟨hany, hfirst⟩ := h
  constructor
  · cases hf : fields.find? (·.name == name) with
    | none => rfl
    | some f =>
      rw [hf] at hfirst
      simp only [Option.any_some] at hfirst
      simp [hfirst]
  · rw [← Option.isSome_iff_exists, List.find?_isSome]
    simpa using hany

/-! ## One frame -/

section OneFrame

variable {R : Registry} (link : ProtoId)

theorem find_layer_span {pkt : Packet} {p : ProtoId} {l : ℕ} (h : find_layer pkt p = some l) :
    ∃ s, pkt.spans[l]? = some s ∧ s.proto = p := by
  unfold find_layer at h
  obtain ⟨hl, hp, -⟩ := List.findIdx?_eq_some_iff_getElem.mp h
  exact ⟨pkt.spans[l], List.getElem?_eq_getElem hl, by simpa using hp⟩

/-- A reference holds the first field of that name in either layout. -/
theorem resolve_at_span {p : ProtoId} {name : String} {r : FieldRef}
    (h : FieldRef.resolve R p name = some r) (spans : List LayerSpan) (l : ℕ) :
    r.at_span spans l
      = (R.fields_of p (0 < Packet.framing_at spans l)).find? (·.name == name) := by
  unfold FieldRef.resolve at h
  dsimp only at h
  split at h
  · cases h
    unfold FieldRef.at_span
    by_cases hframed : 0 < Packet.framing_at spans l
    · simp [hframed]
    · simp [hframed]
  · cases h

/-- Whether the first field declared under the name decides what the frame's layer holds. -/
def settled (a : Accepted R) (buf : Bytes) : Bool :=
  let pkt := Packet.dissect R buf link
  match find_layer pkt a.proto with
  | none => true
  | some l => first_decides (R.fields_of a.proto (0 < pkt.framing l)) (pkt.header l) a.name

/-- What a bulk read finds in the frame. -/
def bulk_value (a : Accepted R) (buf : Bytes) : Option FieldValue :=
  let spans := Packet.dissect_spans R.layers buf link
  (spans.findIdx? fun s => s.proto = a.proto).bind fun l => decode_at buf spans l a.field

variable {link}

/-- No value where there is no layer. -/
theorem bulk_value_none {a : Accepted R} {buf : Bytes}
    (h : find_layer (Packet.dissect R buf link) a.proto = none) :
    bulk_value link a buf = none := by
  have hnone : ((Packet.dissect_spans R.layers buf link).findIdx? fun s => s.proto = a.proto)
      = none := h
  unfold bulk_value
  dsimp only
  rw [hnone]
  rfl

/-- Both reads of a layer that is there, by its fields and its header. -/
theorem reads_of_layer {a : Accepted R} {buf : Bytes} {l : ℕ}
    (h : find_layer (Packet.dissect R buf link) a.proto = some l) :
    let pkt := Packet.dissect R buf link
    let fields := R.fields_of a.proto (0 < pkt.framing l)
    (bulk_value link a buf = (fields.find? (·.name == a.name)).bind fun f =>
        if f.is_active (pkt.header l) then some (decode (pkt.header l) f) else none) ∧
      packet_value R link a.proto a.name buf
        = (fields.find? fun f => f.is_active (pkt.header l) && f.name == a.name).map
          (decode (pkt.header l)) := by
  intro pkt fields
  obtain ⟨s, hs, hproto⟩ := find_layer_span h
  have hheader : pkt.header l = s.header buf := by
    unfold Packet.header
    rw [hs]
    rfl
  constructor
  -- The column looks the name up once for the layer, then asks whether the field is active.
  · have hfound : ((Packet.dissect_spans R.layers buf link).findIdx? fun s => s.proto = a.proto)
        = some l := h
    have hspan : (Packet.dissect_spans R.layers buf link)[l]? = some s := hs
    unfold bulk_value decode_at
    dsimp only
    rw [hfound, Option.bind_some, hspan, Option.bind_some, resolve_at_span a.resolves, hheader]
    rfl
  -- The packet looks for an active field of the name.
  · unfold packet_value get Packet.active_field
    dsimp only
    rw [h, Option.bind_some, hs]
    show (R.active_field_of s.proto _ _ a.name).map _ = _
    rw [hproto]
    rfl

/-- On a settled frame the bulk reader and the packet's own getter read the same value. -/
theorem bulk_value_of_settled {a : Accepted R} {buf : Bytes} (h : settled link a buf = true) :
    bulk_value link a buf = packet_value R link a.proto a.name buf := by
  unfold settled at h
  dsimp only at h
  cases hfound : find_layer (Packet.dissect R buf link) a.proto with
  | none =>
    rw [bulk_value_none hfound]
    unfold packet_value
    dsimp only
    rw [hfound]
    rfl
  | some l =>
    rw [hfound] at h
    obtain ⟨hbulk, hpacket⟩ := reads_of_layer hfound
    rw [hbulk, hpacket]
    exact first_read_of_decides h

/-- A later field of the name is active: the packet has a value and the bulk read finds none. -/
theorem bulk_value_of_not_settled {a : Accepted R} {buf : Bytes}
    (h : settled link a buf = false) :
    bulk_value link a buf = none ∧ ∃ v, packet_value R link a.proto a.name buf = some v := by
  unfold settled at h
  dsimp only at h
  cases hfound : find_layer (Packet.dissect R buf link) a.proto with
  | none =>
    rw [hfound] at h
    cases h
  | some l =>
    rw [hfound] at h
    obtain ⟨hbulk, hpacket⟩ := reads_of_layer hfound
    obtain ⟨hnone, f, hf⟩ := first_read_of_not_decides h
    rw [hbulk, hpacket, hf]
    exact ⟨hnone, _, rfl⟩

/-- A condition holds of a frame where the value the bulk reader takes satisfies it. -/
theorem cond_holds_eq (c : NamedCond R) (buf : Bytes) :
    c.cond.holds buf (Packet.dissect_spans R.layers buf link)
      = (bulk_value link c.field buf).any fun v => satisfies v c.op c.val := by
  unfold Cond.holds bulk_value NamedCond.cond
  dsimp only
  split
  · rename_i hfound
    rw [hfound]
    rfl
  · rename_i l hfound
    rw [hfound, Option.bind_some]
    split
    · rename_i hvalue
      rw [hvalue]
      rfl
    · rename_i v hvalue
      rw [hvalue]
      rfl

/-- Every value satisfies some comparison. -/
theorem exists_satisfied (v : FieldValue) : ∃ op val, satisfies v op val = true := by
  cases v with
  | Uint n => exact ⟨.Eq, .Uint n, by simp [satisfies, FieldValue.as_uint, CmpOp.test]⟩
  | Flags n => exact ⟨.Eq, .Uint n, by simp [satisfies, FieldValue.as_uint, CmpOp.test]⟩
  | Ipv4 b => exact ⟨.Eq, .Bytes b, by simp [satisfies, raw_bytes, CmpOp.test]⟩
  | Ipv6 b => exact ⟨.Eq, .Bytes b, by simp [satisfies, raw_bytes, CmpOp.test]⟩
  | Mac b => exact ⟨.Eq, .Bytes b, by simp [satisfies, raw_bytes, CmpOp.test]⟩
  | Bytes b => exact ⟨.Eq, .Bytes b, by simp [satisfies, raw_bytes, CmpOp.test]⟩

/-- A filter that agrees with the loop on every condition tells a settled frame. -/
theorem settled_of_conds {a : Accepted R} {buf : Bytes}
    (h : ∀ op val, (NamedCond.mk a op val).cond.holds buf (Packet.dissect_spans R.layers buf link)
      = (NamedCond.mk a op val).holds R link buf) :
    settled link a buf = true := by
  by_contra hnot
  obtain ⟨hbulk, v, hv⟩ := bulk_value_of_not_settled (Bool.eq_false_iff.mpr hnot)
  obtain ⟨op, val, hsat⟩ := exists_satisfied v
  have hagree := h op val
  rw [cond_holds_eq] at hagree
  unfold NamedCond.holds at hagree
  dsimp only at hagree
  rw [hbulk, hv, Option.any_none, Option.any_some, hsat] at hagree
  cases hagree

/-- A condition holds of a settled frame as it does in a loop. -/
theorem cond_holds_of_settled {c : NamedCond R} {buf : Bytes}
    (h : settled link c.field buf = true) :
    c.cond.holds buf (Packet.dissect_spans R.layers buf link) = c.holds R link buf := by
  rw [cond_holds_eq, bulk_value_of_settled h]
  rfl

end OneFrame

/-! ## A capture -/

section Capture

variable (R : Registry) {Item : Type} (P : Parsers Item) (render : Bytes → FieldDesc → String)
  (link : ProtoId)

/-- A query whose conditions are on named fields. -/
def named_query (layer : Option ProtoId) (conds : List (NamedCond R)) : Query :=
  ⟨layer, conds.map (·.cond)⟩

/-- Conditions on names that are settled in the frame hold as in a loop. -/
theorem matches_of_settled {layer : Option ProtoId} {conds : List (NamedCond R)} {buf : Bytes}
    (h : ∀ c ∈ conds, settled link c.field buf = true) :
    (named_query R layer conds).matches_spans buf (Packet.dissect_spans R.layers buf link)
      = keeps R link layer conds buf := by
  have hlayer (l : ProtoId) : ((Packet.dissect_spans R.layers buf link).any fun s => s.proto = l)
      = (find_layer (Packet.dissect R buf link) l).isSome := by
    unfold find_layer
    rw [List.findIdx?_isSome]
    rfl
  have hconds : ((named_query R layer conds).conds.all fun c =>
      c.holds buf (Packet.dissect_spans R.layers buf link))
      = conds.all fun c => c.holds R link buf := by
    unfold named_query
    dsimp only
    rw [List.all_map, Bool.eq_iff_iff, List.all_eq_true, List.all_eq_true]
    exact forall₂_congr fun c hc => by rw [Function.comp_apply, cond_holds_of_settled (h c hc)]
  unfold Query.matches_spans keeps
  rw [hconds]
  cases layer with
  | none => rfl
  | some l =>
    have hl := hlayer l
    simp only [named_query, Option.all_some, hl]

/-- What a loop over packets makes of a capture: the rows it keeps, and a column of each name. -/
def loop_columns (specs : List (Accepted R)) (layer : Option ProtoId) (conds : List (NamedCond R))
    (frames : List Bytes) : List (List (Cell Item)) :=
  specs.map fun a => (frames.filter (keeps R link layer conds)).map fun buf =>
    .of_value (packet_value R link a.proto a.name buf)

def loop_indices (layer : Option ProtoId) (conds : List (NamedCond R)) (frames : List Bytes) :
    List ℕ :=
  (frames.zipIdx.filter fun x => keeps R link layer conds x.1).map Prod.snd

/-- A column of the name is of its field, not of what its region parses to. -/
def Accepted.flat (a : Accepted R) : Prop :=
  resolve_spec R P a.proto a.name = some (.Field a.proto a.field)

/-- `cell` of a field is what the bulk read finds. -/
theorem cell_eq (a : Accepted R) (buf : Bytes) :
    cell P render (.Field a.proto a.field) buf (Packet.dissect_spans R.layers buf link)
      = .of_value (bulk_value link a buf) := rfl

/-- Where every field is settled in every frame, the columns are those of the loop over the packets.
-/
theorem columns_of_settled {specs : List (Accepted R)} {layer : Option ProtoId}
    {conds : List (NamedCond R)} {frames : List Bytes}
    (hspecs : ∀ buf ∈ frames, ∀ a ∈ specs, settled link a buf = true)
    (hconds : ∀ buf ∈ frames, ∀ c ∈ conds, settled link c.field buf = true) :
    columns R P render link (specs.map fun a => .Field a.proto a.field)
      (named_query R layer conds) frames = loop_columns R link specs layer conds frames := by
  have hkept : (frames.filter fun buf => (named_query R layer conds).matches_spans buf
      (Packet.dissect_spans R.layers buf link)) = frames.filter (keeps R link layer conds) :=
    List.filter_congr fun buf hbuf => matches_of_settled R link (hconds buf hbuf)
  unfold columns loop_columns
  dsimp only
  rw [hkept, List.map_map]
  refine List.map_congr_left fun a ha => List.map_congr_left fun buf hbuf => ?_
  have hsettled := hspecs buf (List.mem_of_mem_filter hbuf) a ha
  show cell P render (.Field a.proto a.field) buf _ = _
  rw [cell_eq, bulk_value_of_settled hsettled]

theorem filter_indices_of_settled {layer : Option ProtoId} {conds : List (NamedCond R)}
    {frames : List Bytes}
    (hconds : ∀ buf ∈ frames, ∀ c ∈ conds, settled link c.field buf = true) :
    filter_indices R link (named_query R layer conds) frames
      = loop_indices R link layer conds frames := by
  unfold filter_indices loop_indices
  congr 1
  refine List.filter_congr fun x hx => matches_of_settled R link (hconds x.1 ?_)
  exact List.fst_mem_of_mem_zipIdx hx

/-- A field read at a fixed place is not one of the parsed items. -/
theorem flat_not_parsed {a : Accepted R} (h : a.flat R P) :
    ¬ (a.name = P.parsed_field_name a.proto ∧ P.has_parsed_items a.proto) := by
  intro hparsed
  unfold Accepted.flat resolve_spec at h
  split at h
  · cases hbare : FieldRef.resolve R a.proto (String.ofList _) with
    | none =>
      rw [hbare] at h
      cases h
    | some r =>
      rw [hbare] at h
      cases h
  · cases h
  · rw [if_pos hparsed] at h
    cases h

/-- The per-packet column of the name. -/
theorem field_column_eq {a : Accepted R} (h : a.flat R P) (frames : List Bytes) :
    field_column R P link a.proto a.name frames
      = some (frames.map fun buf => .of_value (packet_value R link a.proto a.name buf)) := by
  have hknown : (field_of R a.proto a.name).isNone = false := by
    have hr := a.resolves
    unfold FieldRef.resolve at hr
    dsimp only at hr
    split at hr
    · rename_i hkept
      unfold field_of
      rw [Option.isNone_eq_false_iff, Option.isSome_or, Bool.or_eq_true]
      exact hkept
    · cases hr
  unfold field_column
  rw [hknown, if_neg Bool.false_ne_true]
  dsimp only
  simp only [if_neg (flat_not_parsed R P h)]
  refine congrArg some (List.map_congr_left fun buf _ => ?_)
  unfold packet_value
  dsimp only
  cases find_layer (Packet.dissect R buf link) a.proto with
  | none => rfl
  | some l => rfl

/-- The indices kept by the filter are those of the frames that match. -/
theorem mem_filter_indices {q : Query} {frames : List Bytes} {i : ℕ} {buf : Bytes}
    (h : frames[i]? = some buf) :
    i ∈ filter_indices R link q frames
      ↔ q.matches_spans buf (Packet.dissect_spans R.layers buf link) = true := by
  unfold filter_indices
  rw [List.mem_map]
  constructor
  · rintro ⟨⟨b, j⟩, hx, rfl⟩
    obtain ⟨hmem, hkeep⟩ := List.mem_filter.mp hx
    have hb := List.mem_zipIdx_iff_getElem?.mp hmem
    rw [h] at hb
    cases hb
    exact hkeep
  · intro hkeep
    exact ⟨(buf, i), List.mem_filter.mpr ⟨List.mem_zipIdx_iff_getElem?.mpr h, hkeep⟩, rfl⟩

/-- The indices kept by the loop are those of the packets it keeps. -/
theorem mem_loop_indices {layer : Option ProtoId} {conds : List (NamedCond R)}
    {frames : List Bytes} {i : ℕ} {buf : Bytes} (h : frames[i]? = some buf) :
    i ∈ loop_indices R link layer conds frames ↔ keeps R link layer conds buf = true := by
  unfold loop_indices
  rw [List.mem_map]
  constructor
  · rintro ⟨⟨b, j⟩, hx, rfl⟩
    obtain ⟨hmem, hkeep⟩ := List.mem_filter.mp hx
    have hb := List.mem_zipIdx_iff_getElem?.mp hmem
    rw [h] at hb
    cases hb
    exact hkeep
  · intro hkeep
    exact ⟨(buf, i), List.mem_filter.mpr ⟨List.mem_zipIdx_iff_getElem?.mpr h, hkeep⟩, rfl⟩

/-- Filters of one condition that agree with the loop tell which frames are settled. -/
theorem settled_of_filters {a : Accepted R} {frames : List Bytes}
    (h : ∀ op val, filter_indices R link (named_query R none [⟨a, op, val⟩]) frames
      = loop_indices R link none [⟨a, op, val⟩] frames) {buf : Bytes} (hbuf : buf ∈ frames) :
    settled link a buf = true := by
  obtain ⟨i, hi⟩ := List.mem_iff_getElem?.mp hbuf
  refine settled_of_conds fun op val => ?_
  have hmem := mem_filter_indices R link (q := named_query R none [⟨a, op, val⟩]) hi
  rw [h op val, mem_loop_indices R link hi] at hmem
  rw [Bool.eq_iff_iff]
  simpa [Query.matches_spans, named_query, keeps] using hmem.symm

/-- Columns, filters and their indices agree with a loop over packets exactly when, in every frame
and for every name, the field declared first under the name is active if one of that name is. -/
theorem bulk_reads_iff (frames : List Bytes) (names : List (Accepted R)) :
    ((∀ specs layer conds, (∀ a ∈ specs, a ∈ names ∧ a.flat R P) →
        (∀ c ∈ conds, (c : NamedCond R).field ∈ names) →
        columns R P render link (specs.map fun a => .Field a.proto a.field)
            (named_query R layer conds) frames = loop_columns R link specs layer conds frames ∧
          filter_indices R link (named_query R layer conds) frames
            = loop_indices R link layer conds frames) ∧
      (∀ a ∈ names, a.flat R P →
        field_column R P link a.proto a.name frames
          = (columns R P render link [.Field a.proto a.field] ⟨none, []⟩ frames).head?)) ↔
      ∀ buf ∈ frames, ∀ a ∈ names, settled link a buf = true := by
  constructor
  -- One query with one condition on the name settles it, by both directions of the comparison.
  · rintro ⟨hall, -⟩ buf hbuf a ha
    refine settled_of_filters R link (fun op val => ?_) hbuf
    refine (hall [] none [⟨a, op, val⟩] (by simp) fun c hc => ?_).2
    rw [List.mem_singleton] at hc
    rwa [hc]
  · intro h
    refine ⟨fun specs layer conds hspecs hconds => ⟨?_, ?_⟩, fun a ha hflat => ?_⟩
    -- The columns and the indices follow name by name.
    · exact columns_of_settled R P render link (fun buf hbuf a ha => h buf hbuf a (hspecs a ha).1)
        fun buf hbuf c hc => h buf hbuf c.field (hconds c hc)
    · exact filter_indices_of_settled R link fun buf hbuf c hc => h buf hbuf c.field (hconds c hc)
    -- The bulk read of one field is the column of a query without conditions, which keeps every
    -- frame.
    · have hsettled : ∀ buf ∈ frames, ∀ b ∈ [a], settled link b buf = true := by
        intro buf hbuf b hb
        rw [List.mem_singleton] at hb
        rw [hb]
        exact h buf hbuf a ha
      have hnone : ∀ buf ∈ frames, ∀ c ∈ ([] : List (NamedCond R)),
          settled link c.field buf = true := fun _ _ c hc => absurd hc List.not_mem_nil
      have hcolumns : columns R P render link ([a].map fun a => .Field a.proto a.field)
          (named_query R none []) frames = loop_columns R link [a] none [] frames :=
        columns_of_settled R P render link hsettled hnone
      have hkeeps : frames.filter (keeps R link none []) = frames :=
        List.filter_eq_self.mpr fun _ _ => rfl
      rw [field_column_eq R P link hflat]
      show _ = (columns R P render link ([a].map fun a => .Field a.proto a.field)
        (named_query R none []) frames).head?
      rw [hcolumns]
      unfold loop_columns
      rw [hkeeps]
      rfl

end Capture

/-! ## ICMP's `unused` -/

theorem length_unbound (hdr : Bytes) (_ : ProtoId) : hdr.length = hdr.length := rfl

def unbound : Packet.Hook ProtoId := ⟨fun hdr _ => hdr, length_unbound⟩

theorem unbound_run (p : ProtoId) (_ : p = .Ipv4 ∨ p = .Tcp) (hdr : Bytes) (q : ProtoId) :
    unbound.run hdr q = hdr := rfl

/-- The core layers alone. -/
def core : Registry where
  other _ := Packet.raw_full_desc "Raw"
  resolve n _ := .other n
  binds := []
  by_layer _ _ := none
  by_ethertype _ := none
  by_ethertype_of _ := none
  by_ipproto _ := none
  by_ipproto_of _ := none
  by_icmpv6_type _ := none
  by_icmpv6_type_of _ := none
  by_udp_port _ _ _ := none
  by_udp_port_of _ := none
  by_tcp_port _ _ _ := none
  by_tcp_port_of _ := none
  base_of _ := none
  bind_layer _ := unbound
  bind_layer_core := unbound_run

/-- No layer's region is parsed. -/
def unparsed : Parsers Unit := ⟨fun _ => "options", fun _ => none⟩

/-- An ICMP time exceeded with nothing quoted. -/
def time_exceeded : Bytes :=
  Packet.ether_header ++ Packet.ipv4_header 1 [10, 0, 0, 1] [10, 0, 0, 2] 28 ++
    [11, 0, 0, 0, 0, 0, 0, 0]

/-- `unused` is declared three times, and the first of them is not a time exceeded's: the column
and the filter find nothing where the packet reads 0. -/
theorem unused_missed :
    ∃ a : Accepted core, a.proto = .Icmp ∧ a.name = "unused" ∧ a.flat core unparsed ∧
      columns core unparsed (fun _ f => f.name) .Ether [.Field a.proto a.field] ⟨none, []⟩
        [time_exceeded] = [[.Null]] ∧
      field_column core unparsed .Ether .Icmp "unused" [time_exceeded] = some [.Val (.Uint 0)] ∧
      filter_indices core .Ether (named_query core none [⟨a, .Eq, .Uint 0⟩]) [time_exceeded] = [] ∧
      loop_indices core .Ether none [⟨a, .Eq, .Uint 0⟩] [time_exceeded] = [0] := by
  refine ⟨⟨.Icmp, "unused", _, rfl⟩, rfl, rfl, rfl, ?_, ?_, ?_, ?_⟩
  · decide +kernel
  · decide +kernel
  · decide +kernel
  · decide +kernel

end Wiry.Columnar
