/-
`sprintf_list` against `sprintf` of each packet: the plan of a format has the column of every directive,
and with it a row renders as its packet does.
-/
import Wiry.Report.BulkAgree

set_option autoImplicit false

namespace Wiry.Report

open Columnar
open Packet (Bytes LayerSpan ProtoId FieldDesc Registry)

variable {R : Registry} {Item τ : Type} {T : Tables Item}

/-! ## The plan -/

theorem mem_put {need : List Key} {k k' : Key} : k' ∈ put need k ↔ k' ∈ need ∨ k' = k := by
  unfold put
  split
  · rename_i hk
    constructor
    · exact .inl
    · rintro (h | rfl)
      · exact h
      · exact hk
  · rw [List.mem_append, List.mem_singleton]

theorem subset_put (need : List Key) (k : Key) : need ⊆ put need k := fun _ h => mem_put.2 (.inl h)

theorem mem_put_self (need : List Key) (k : Key) : k ∈ put need k := mem_put.2 (.inr rfl)

theorem column_fields_eq {layer : Text} {known : List Text} (h : column_fields R T layer = some known) :
    ∃ p, T.by_name layer = some p ∧ known = all_field_names R p := by
  obtain ⟨p, hp, rfl⟩ := Option.map_eq_some_iff.1 h
  exact ⟨p, hp, rfl⟩

/-- What a planned block asks for. -/
theorem plan_cond {layer : Text} {field : Option Text} {parts : List Part} {need need' : List Key}
    (h : (Part.cond layer field parts).plan R T need = some need') :
    ∃ p, T.by_name layer = some p ∧ (∀ f ∈ field, f ∈ all_field_names R p) ∧
      plan R T parts (put need (layer, field.getD [])) = some need' := by
  unfold Part.plan at h
  split at h
  · cases h
  · rename_i known hknown
    obtain ⟨p, hp, rfl⟩ := column_fields_eq hknown
    split at h
    · cases h
    · rename_i hfield
      refine ⟨p, hp, fun f hf => ?_, h⟩
      cases hf
      simpa using hfield

/-- What a planned directive asks for. -/
theorem plan_fld {layer : Option Text} {nb : ℕ} {field spec : Text} {raw : Bool} {need need' : List Key}
    (h : (Part.fld layer nb field spec raw).plan R T need = some need') :
    ∃ name p, layer = some name ∧ nb = 1 ∧ T.by_name name = some p ∧ field ∈ all_field_names R p ∧
      need' = put need (name, column_key R T name field raw) := by
  unfold Part.plan at h
  split at h
  · cases h
  · rename_i name
    split at h
    · cases h
    · rename_i known hknown
      obtain ⟨p, hp, rfl⟩ := column_fields_eq hknown
      split at h
      · cases h
      · rename_i hout
        rw [not_or, not_not, not_not] at hout
        cases h
        exact ⟨name, p, rfl, hout.1, hp, hout.2, rfl⟩

theorem plan_cons {part : Part} {parts : List Part} {need need' : List Key}
    (h : plan R T (part :: parts) need = some need') :
    ∃ between, part.plan R T need = some between ∧ plan R T parts between = some need' := by
  rw [plan] at h
  exact Option.bind_eq_some_iff.1 h

section Resolved

variable (hreg : Regular R T)

/-- A key whose column is there. -/
def Resolvable (R : Registry) (T : Tables Item) (need : List Key) : Prop := ∀ k ∈ need, (resolve_key R T k).isSome

/-- One more key that resolves. -/
theorem Resolvable.put {need : List Key} {k : Key} (h : Resolvable R T need)
    (hk : (resolve_key R T k).isSome) : Resolvable R T (put need k) := by
  intro k' hk'
  obtain hk' | rfl := mem_put.1 hk'
  · exact h k' hk'
  · exact hk

theorem resolve_key_time : (resolve_key R T (FRAME, "time".toList)).isSome := by
  unfold resolve_key
  rw [if_pos rfl, if_pos rfl]
  rfl

/-- The column of a layer that is there. -/
theorem resolve_key_present {layer : Text} {p : ProtoId} (hp : T.by_name layer = some p) :
    resolve_key R T (layer, []) = some (.of (.Present p)) := by
  have hframe : layer ≠ FRAME := by
    rintro rfl
    rw [T.frame_free] at hp
    cases hp
  unfold resolve_key
  rw [if_neg hframe, hp]
  rfl

include hreg

/-- The key of a field resolves. -/
theorem resolve_key_field {layer field : Text} {p : ProtoId} (hp : T.by_name layer = some p)
    (hfield : field ∈ all_field_names R p) : (resolve_key R T (layer, field)).isSome := by
  obtain ⟨hne, hhead, -⟩ := hreg.fields_start hfield
  obtain ⟨r, -, h⟩ := resolve_key_plain hp hfield hne hhead
  rw [h]
  rfl

theorem resolve_key_column {layer field : Text} {p : ProtoId} (hp : T.by_name layer = some p)
    (hfield : field ∈ all_field_names R p) (raw : Bool) :
    (resolve_key R T (layer, column_key R T layer field raw)).isSome := by
  unfold column_key
  split
  · exact resolve_key_field hreg hp hfield
  · obtain ⟨r, -, h⟩ := resolve_key_shown hp hfield
    rw [h]
    rfl

end Resolved

mutual

/-- Planning a part only adds keys, and each of them can be resolved. -/
theorem Part.plan_grows (hreg : Regular R T) : ∀ (part : Part) {need need' : List Key}, part.plan R T need = some need' →
    need ⊆ need' ∧ (Resolvable R T need → Resolvable R T need')
  | .lit _, need, need', h => by
    rw [Part.plan] at h
    cases h
    exact ⟨fun _ hk => hk, id⟩
  | .time _, need, need', h => by
    rw [Part.plan] at h
    cases h
    exact ⟨subset_put _ _, fun hneed => hneed.put resolve_key_time⟩
  | .cond layer field parts, need, need', h => by
    -- The condition's own key is put first, then those of its parts.
    obtain ⟨p, hp, hfield, hparts⟩ := plan_cond h
    obtain ⟨hsub, hres⟩ := plan_grows hreg parts hparts
    refine ⟨fun _ hk => hsub (subset_put _ _ hk), fun hneed => hres (hneed.put ?_)⟩
    cases field with
    | none =>
      rw [Option.getD_none, resolve_key_present hp]
      rfl
    | some field => exact resolve_key_field hreg hp (hfield field rfl)
  | .fld layer nb field spec raw, need, need', h => by
    obtain ⟨name, p, rfl, rfl, hp, hfield, rfl⟩ := plan_fld h
    exact ⟨subset_put _ _, fun hneed => hneed.put (resolve_key_column hreg hp hfield raw)⟩

/-- A plan only adds columns, and adds none that is not there. -/
theorem plan_grows (hreg : Regular R T) : ∀ (parts : List Part) {need need' : List Key},
    plan R T parts need = some need' → need ⊆ need' ∧ (Resolvable R T need → Resolvable R T need')
  | [], need, need', h => by
    rw [plan] at h
    cases h
    exact ⟨fun _ hk => hk, id⟩
  | part :: parts, need, need', h => by
    obtain ⟨between, hpart, hparts⟩ := plan_cons h
    obtain ⟨hsub, hres⟩ := part.plan_grows hreg hpart
    obtain ⟨hsub', hres'⟩ := plan_grows hreg parts hparts
    exact ⟨fun _ hk => hsub' (hsub hk), hres' ∘ hres⟩

end

theorem resolve_of_resolvable {need : List Key} (h : Resolvable R T need) :
    ∃ cols, resolve R T need = some cols := by
  induction need with
  | nil => exact ⟨[], rfl⟩
  | cons k need ih =>
    obtain ⟨cols, hcols⟩ := ih fun k' hk' => h k' (List.mem_cons_of_mem k hk')
    obtain ⟨c, hc⟩ := Option.isSome_iff_exists.1 (h k List.mem_cons_self)
    refine ⟨(k, c) :: cols, ?_⟩
    unfold resolve at hcols ⊢
    rw [List.mapM_cons, hc, hcols]
    rfl

/-! ## Both sources -/

/-- Each column answers for what the frame holds. -/
def Answered (R : Registry) (T : Tables Item) (link : ProtoId) (buf : Bytes) : Prop :=
  ∀ p, ∀ field ∈ all_field_names R p, ∀ l, find_layer (Packet.dissect R buf link) p = some l →
    Answers R T link buf l p field

variable {py : Python Item τ} {link : ProtoId} {need : List Key} {cols : Cols} {frame : Bytes × τ}

section Sources

variable (hreg : Regular R T) (hcols : resolve R T need = some cols)

include hcols

/-- A layer is in a row where it is in the packet. -/
theorem present_layer {layer : Text} {p : ProtoId} (hp : T.by_name layer = some p)
    (hk : (layer, []) ∈ need) :
    (ColSource R T py link cols frame).present layer none =
      (PktSource R T py link frame).present layer none := by
  obtain ⟨c, hc, hlookup⟩ := lookup_resolved hcols hk
  rw [resolve_key_present hp] at hc
  cases hc
  have hname : ∀ s : LayerSpan, T.name s.proto = layer ↔ s.proto = p := by
    intro s
    rw [← T.by_name_iff, hp, Option.some.injEq, eq_comm]
  unfold ColSource PktSource
  dsimp only
  rw [Option.getD_none, hlookup]
  simp only [hname]
  show Except.ok (false || decide (Bool.toNat _ ≠ 0)) = _
  cases h : (Packet.dissect_spans R.layers frame.1 link).any fun s => decide (s.proto = p) with
  | true => rw [show (Packet.dissect R frame.1 link).spans.any _ = true from h]; rfl
  | false => rw [show (Packet.dissect R frame.1 link).spans.any _ = false from h]; rfl

/-- The time is shown alike. -/
theorem shown_time (hk : (FRAME, "time".toList) ∈ need) (spec : Text) :
    (ColSource R T py link cols frame).shown (.time spec) =
      (PktSource R T py link frame).shown (.time spec) := by
  obtain ⟨c, -, hlookup⟩ := lookup_resolved hcols hk
  unfold ColSource PktSource
  dsimp only
  rw [hlookup]
  rfl

include hreg

section Present

variable {layer field : Text} {p : ProtoId} {l : ℕ} (hp : T.by_name layer = some p)
  (hfield : field ∈ all_field_names R p) (hk : (layer, field) ∈ need)

include hp

omit hcols in
variable (py link frame) in
/-- What a condition on a field is of a packet. -/
theorem pkt_present (hplain : Unmodelled R T link frame.1) (hfield : field ∈ all_field_names R p) (hname : field ≠ NAME) :
    (PktSource R T py link frame).present layer (some field) =
      .ok ((find_layer (Packet.dissect R frame.1 link) p).any fun l => field.head? ≠ some '_' ∧
        (parsed T p field ∨
          ((Packet.dissect R frame.1 link).active_field R l (String.ofList field)).isSome)) := by
  have hopen := hreg.open_of hfield hname
  show (pkt_value R T link frame.1 (some layer) 1 field true).map Option.isSome = _
  cases hl : find_layer (Packet.dissect R frame.1 link) p with
  | none =>
    rw [pkt_value_absent hp hl]
    rfl
  | some l =>
    rw [pkt_value_found hplain hp hl, if_neg (by simp)]
    -- A name with an underscore is the view's own, a parsed one its items, any other the field.
    by_cases hhead : field.head? = some '_'
    · rw [layer_view_hidden hl hopen hhead]
      simp [hhead, Except.map]
    by_cases hparsed : parsed T p field
    · obtain ⟨items, hitems⟩ := options_found hl hparsed
      rw [layer_view_parsed hl hopen hparsed hhead hitems]
      simp [hhead, hparsed, Except.map]
    · rw [layer_view_isSome hreg hl hopen hparsed hhead]
      simp [hhead, hparsed]

include hfield hk

variable (py link frame) in
/-- What a condition on a field is of a row. -/
theorem col_present : (ColSource R T py link cols frame).present layer (some field) =
    .ok ((find_layer (Packet.dissect R frame.1 link) p).any fun l =>
      parsed T p field ∨ (first_field R link frame.1 l p field).isSome) := by
  have hkey : (layer, column_key R T layer field true) ∈ need := hk
  obtain ⟨r, hr, c, rfl, hlookup, -⟩ := col_value_plain link frame.1 hreg hcols hp hfield (.inl rfl) hkey
  unfold ColSource
  dsimp only
  rw [Option.getD_some, hlookup]
  show Except.ok ((cell_to_py [] (col_cell R T link _ frame.1)).any _) = _
  -- A column has a cell for every frame; it is empty where the layer or the field is not there.
  cases hl : find_layer (Packet.dissect R frame.1 link) p with
  | none =>
    split
    · rw [(col_cell_absent hl r).2.1]
      rfl
    · rw [(col_cell_absent hl r).2.2]
      rfl
  | some l =>
    by_cases hparsed : parsed T p field
    · obtain ⟨items, hitems⟩ := options_found hl hparsed
      rw [if_pos hparsed, col_cell_options hl, hitems]
      simp [hparsed, cell_to_py]
    · rw [if_neg hparsed, col_cell_field hl hr]
      cases hfirst : first_field R link frame.1 l p field with
      | none => simp [hparsed, hfirst, cell_to_py, Cell.of_value]
      | some f => simp [hparsed, hfirst, cell_to_py, Cell.of_value]

end Present

variable (hplain : Unmodelled R T link frame.1) (hans : Answered R T link frame.1)

include hplain hans

/-- A field under a condition is present in one where it is in the other. -/
theorem present_field {layer field : Text} {p : ProtoId} (hp : T.by_name layer = some p)
    (hfield : field ∈ all_field_names R p) (hk : (layer, field) ∈ need) :
    (ColSource R T py link cols frame).present layer (some field) =
      (PktSource R T py link frame).present layer (some field) := by
  cases hl : find_layer (Packet.dissect R frame.1 link) p with
  | none =>
    rw [col_present py link frame hreg hcols hp hfield hk, hl]
    show _ = (pkt_value R T link frame.1 (some layer) 1 field true).map Option.isSome
    rw [pkt_value_absent hp hl]
    rfl
  | some l =>
    have hans := hans p field hfield l hl
    rw [col_present py link frame hreg hcols hp hfield hk, pkt_present py link frame hreg hp hplain hfield hans.unnamed,
      hl, Option.any_some, Option.any_some]
    by_cases hhead : field.head? = some '_'
    · have hparsed : ¬parsed T p field := fun h => (hreg.parsed_apart h).2 hhead
      simp [hhead, hparsed, hans.hidden hhead]
    by_cases hparsed : parsed T p field
    · simp [hhead, hparsed]
    · rw [hans.first hparsed hhead]
      simp [hhead, hparsed]

theorem shown_field {layer field : Text} {p : ProtoId} (hp : T.by_name layer = some p)
    (hfield : field ∈ all_field_names R p) {raw : Bool}
    (hk : (layer, column_key R T layer field raw) ∈ need) (spec : Text) :
    (ColSource R T py link cols frame).shown (.fld (some layer) 1 field spec raw) =
      (PktSource R T py link frame).shown (.fld (some layer) 1 field spec raw) := by
  unfold ColSource PktSource
  dsimp only
  rw [value_eq hreg hcols hp hfield hplain hk (hans p field hfield)]

end Sources

mutual

/-- A part is rendered alike from the columns and from the packet; the induction is on the part,
conditional parts included. -/
theorem Part.render_eq (hreg : Regular R T) (hcols : resolve R T need = some cols)
    (hplain : Unmodelled R T link frame.1) (hans : Answered R T link frame.1) :
    ∀ (part : Part) {before after : List Key}, part.plan R T before = some after →
    after ⊆ need → part.render (ColSource R T py link cols frame) = part.render (PktSource R T py link frame)
  | .lit _, _, _, _, _ => rfl
  | .time spec, before, after, h, hsub => by
    rw [Part.plan] at h
    cases h
    exact shown_time hcols (hsub (mem_put_self _ _)) spec
  | .cond layer field parts, before, after, h, hsub => by
    obtain ⟨p, hp, hfield, hparts⟩ := plan_cond h
    -- what the plan put for the condition is still among the keys
    have hk : (layer, field.getD []) ∈ need :=
      hsub ((plan_grows hreg parts hparts).1 (mem_put_self _ _))
    have hpresent : (ColSource R T py link cols frame).present layer field =
        (PktSource R T py link frame).present layer field := by
      cases field with
      | none => exact present_layer hcols hp hk
      | some field => exact present_field hreg hcols hplain hans hp (hfield field rfl) hk
    rw [Part.render, Part.render, hpresent, render_eq hreg hcols hplain hans parts hparts hsub]
  | .fld layer nb field spec raw, before, after, h, hsub => by
    obtain ⟨name, p, rfl, rfl, hp, hfield, rfl⟩ := plan_fld h
    exact shown_field hreg hcols hplain hans hp hfield (hsub (mem_put_self _ _)) spec

/-- What is planned renders of a row as of its packet. -/
theorem render_eq (hreg : Regular R T) (hcols : resolve R T need = some cols)
    (hplain : Unmodelled R T link frame.1) (hans : Answered R T link frame.1) :
    ∀ (parts : List Part) {before after : List Key}, plan R T parts before = some after →
    after ⊆ need → render (ColSource R T py link cols frame) parts = render (PktSource R T py link frame) parts
  | [], _, _, _, _ => rfl
  | part :: parts, before, after, h, hsub => by
    obtain ⟨between, hpart, hparts⟩ := plan_cons h
    have hpart := part.render_eq hreg hcols hplain hans hpart fun _ hk => hsub ((plan_grows hreg parts hparts).1 hk)
    rw [render, render, hpart, render_eq hreg hcols hplain hans parts hparts hsub]

end

/-! ## Captures -/

theorem mapM_congr_mem {α β : Type} {f g : α → Except Raised β} {l : List α} (h : ∀ a ∈ l, f a = g a) :
    l.mapM f = l.mapM g := by
  induction l with
  | nil => rfl
  | cons a l ih =>
    rw [List.mapM_cons, List.mapM_cons, h a List.mem_cons_self,
      ih fun b hb => h b (List.mem_cons_of_mem a hb)]

/-- So is every frame of a list. -/
theorem render_list_eq (hreg : Regular R T) {frames : List (Bytes × τ)}
    (hplain : ∀ frame ∈ frames, Unmodelled R T link frame.1)
    (hans : ∀ frame ∈ frames, Answered R T link frame.1) (parts : List Part) :
    render_list R T py link frames parts =
      frames.mapM fun frame => render (PktSource R T py link frame) parts := by
  unfold render_list
  cases hplan : plan R T parts [] with
  | none => rfl
  | some need =>
    obtain ⟨cols, hcols⟩ := resolve_of_resolvable
      ((plan_grows hreg parts hplan).2 fun k hk => absurd hk List.not_mem_nil)
    dsimp only
    rw [hcols]
    exact mapM_congr_mem fun frame hframe =>
      render_eq hreg hcols (hplain frame hframe) (hans frame hframe) parts hplan fun _ hk => hk

/-- Of frames each column answers for, both entry points render the same, or both raise. -/
theorem sprintf_list_eq (hreg : Regular R T) {frames : List (Bytes × τ)}
    (hplain : ∀ frame ∈ frames, Unmodelled R T link frame.1)
    (hans : ∀ frame ∈ frames, Answered R T link frame.1) (str : Str) {fmt : Text}
    (hread : frames ≠ [] ∨ (parse str fmt).isOk) :
    sprintf_list R T py link str frames fmt = frames.mapM fun frame => sprintf R T py link str frame fmt := by
  unfold sprintf_list sprintf
  cases hparse : parse str fmt with
  | error e =>
    rw [hparse] at hread
    obtain hne | hread := hread
    · cases frames with
      | nil => exact absurd rfl hne
      | cons frame frames =>
        rw [List.mapM_cons]
        rfl
    · cases hread
  | ok parts => exact render_list_eq hreg hplain hans parts

end Wiry.Report
