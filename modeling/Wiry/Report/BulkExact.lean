/-
The captures whose rows render as their packets do, whatever the format: what a row is asked under a
condition, as a number and as it is tells all that a packet and a column can differ in.
-/
import Mathlib.Data.List.TakeWhile
import Wiry.Report.BulkSprintf
import Wiry.Report.Descent

set_option autoImplicit false

namespace Wiry.Report

open Columnar
open Packet (Bytes LayerSpan ProtoId FieldDesc Registry counted)
open Show (Named)
open Volatile (partition partition_append partition_of_not_mem)

local instance word_lawful : LawfulBEq Text := inferInstance

/-! ## Formats of one part -/

/-- The text is one identifier. -/
def IsWord (w : Text) : Prop := word w = some (w, [])

instance (w : Text) : Decidable (IsWord w) := inferInstanceAs (Decidable (_ = _))

/-- A word starts with a letter or an underscore and goes on with those and digits. -/
theorem IsWord.cons {w : Text} (h : IsWord w) : ∃ c cs, w = c :: cs ∧ (c.isAlpha ∨ c = '_') ∧
    ∀ x ∈ cs, x.isAlphanum ∨ x = '_' := by
  cases w with
  | nil => cases h
  | cons c cs =>
    rw [IsWord, word] at h
    by_cases hc : c.isAlpha ∨ c = '_'
    · rw [if_pos hc, Option.some.injEq, Prod.mk.injEq] at h
      refine ⟨c, cs, rfl, hc, fun x hx => ?_⟩
      simpa using List.dropWhile_eq_nil_iff.1 h.2 x hx
    · rw [if_neg hc] at h
      cases h

/-- No character of an identifier is punctuation. -/
theorem IsWord.not_mem {w : Text} (h : IsWord w) {x : Char} (hx : ¬(x.isAlphanum ∨ x = '_')) : x ∉ w := by
  obtain ⟨c, cs, rfl, hc, hcs⟩ := h.cons
  intro hmem
  obtain rfl | hmem := List.mem_cons.1 hmem
  · exact hx (hc.imp_left fun halpha => by simp [Char.isAlphanum, halpha])
  · exact hx (hcs x hmem)

theorem IsWord.ne_nil {w : Text} (h : IsWord w) : w ≠ [] := by
  obtain ⟨c, cs, rfl, -⟩ := h.cons
  exact List.cons_ne_nil c cs

/-- An identifier is read up to a character that is of none. -/
theorem word_append {w : Text} (h : IsWord w) {x : Char} (hx : ¬(x.isAlphanum ∨ x = '_')) (rest : Text) :
    word (w ++ x :: rest) = some (w, x :: rest) := by
  obtain ⟨c, cs, rfl, hc, hcs⟩ := h.cons
  have hall : ∀ y ∈ cs, (decide (y.isAlphanum ∨ y = '_')) = true := fun y hy => decide_eq_true (hcs y hy)
  rw [List.cons_append, word, if_pos hc, List.takeWhile_append_of_pos hall,
    List.dropWhile_append_of_pos hall, List.takeWhile_cons_of_neg (by simpa using hx),
    List.dropWhile_cons_of_neg (by simpa using hx), List.append_nil]

variable {str : Str} {layer field : Text}

section Formats

variable (hlayer : IsWord layer) (hfield : IsWord field)

include hlayer hfield

omit hlayer hfield in
/-- One turn of the loop. -/
theorem loop_piece {n : ℕ} {st : State} {c : Char} {cs rest : Text} {x : Piece} (hst : st.rest = c :: cs)
    (h : piece str c cs = .ok (x, rest)) : loop str (n + 1) st = loop str n (step st c cs x rest) := by
  rw [loop, hst]
  dsimp only
  rw [h]

omit hlayer hfield in
theorem loop_end {n : ℕ} {st : State} (hst : st.rest = []) : loop str n st = .ok st := by
  cases n with
  | zero => rfl
  | succ n => rw [loop, hst]

/-- A condition on a field, around a character. -/
theorem parse_condition :
    parse str ('{' :: (layer ++ '.' :: field ++ [':', 'x', '}'])) =
      .ok [.cond layer (some field) [.lit ['x']]] := by
  -- The braces enclose a layer, a field and one letter to print.
  have hhead : head (layer ++ '.' :: field ++ [':', 'x', '}']) =
      some (layer ++ '.' :: field ++ [':'], ['x', '}']) := by
    unfold head
    rw [List.append_assoc, List.cons_append, word_append hlayer (by decide)]
    have hword : word (field ++ [':', 'x', '}']) = some (field, [':', 'x', '}']) :=
      word_append (x := ':') hfield (by decide) ['x', '}']
    simp [hword]
  have hblock : block (layer ++ '.' :: field ++ [':']) [.lit ['x']] = .cond layer (some field) [.lit ['x']] := by
    obtain ⟨c, cs, hcs, -⟩ := hfield.cons
    unfold block
    rw [List.dropLast_concat, partition_append (hlayer.not_mem (by decide)), hcs]
  have hopen : piece str '{' (layer ++ '.' :: field ++ [':', 'x', '}']) =
      .ok (.head (layer ++ '.' :: field ++ [':']), ['x', '}']) := by
    unfold piece
    rw [if_neg (by decide), if_pos rfl, hhead]
  obtain ⟨n, hn⟩ : ∃ n, ('{' :: (layer ++ '.' :: field ++ [':', 'x', '}'])).length = n + 3 := by
    refine ⟨layer.length + field.length + 2, ?_⟩
    simp
    omega
  -- three pieces, then the end
  unfold parse
  rw [hn, loop_piece rfl hopen, loop_piece (c := 'x') rfl rfl, loop_piece (c := '}') rfl rfl, loop_end rfl]
  show Except.ok [block (layer ++ '.' :: field ++ [':']) [.lit ['x']]] = _
  rw [hblock]

/-- A field by its stored value, under a modifier. -/
theorem parse_stored {spec : Text} (hcomma : ',' ∉ spec) (hpercent : '%' ∉ spec)
    (hlayer' : str.isidentifier layer = true) (hfield' : str.isidentifier field = true) :
    parse str ('%' :: (spec ++ ['r'] ++ ',' :: (layer ++ '.' :: field) ++ ['%'])) =
      .ok [.fld (some layer) 1 field spec true] := by
  have hdirective : directive str (spec ++ ['r'] ++ ',' :: (layer ++ '.' :: field)) =
      .ok (some (.fld (some layer) 1 field spec true)) := by
    obtain ⟨c, cs, hcs, hc, -⟩ := hlayer.cons
    have hdot : (layer ++ '.' :: field).head? ≠ some '.' := by
      rw [hcs]
      rintro h
      obtain rfl := Option.some.inj h
      exact absurd hc (by decide)
    unfold directive
    rw [if_neg (by simp), partition_append (by simpa using hcomma)]
    dsimp only
    rw [List.getLast?_concat, if_pos rfl, List.dropLast_concat, if_neg hdot,
      partition_append (hlayer.not_mem (by decide))]
    dsimp only
    unfold occurrence
    rw [partition_of_not_mem (hlayer.not_mem (by decide))]
    dsimp only
    unfold fld
    rw [if_neg (by simp [hlayer', hfield'])]
    simp
  have hbody : '%' ∉ spec ++ ['r'] ++ ',' :: (layer ++ '.' :: field) := by
    have hl := hlayer.not_mem (x := '%') (by decide)
    have hf := hfield.not_mem (x := '%') (by decide)
    simp [hpercent, hl, hf]
  have hpiece : piece str '%' (spec ++ ['r'] ++ ',' :: (layer ++ '.' :: field) ++ ['%']) =
      .ok (.part (.fld (some layer) 1 field spec true), []) := by
    unfold piece
    rw [if_pos rfl]
    split
    -- `%%` is a sign of its own, but this body does not start with one
    · rename_i rest heq
      obtain ⟨c, cs, hcs⟩ := List.exists_cons_of_ne_nil (l := spec ++ ['r'] ++ ',' :: (layer ++ '.' :: field))
        (by simp)
      rw [hcs] at heq hbody
      obtain ⟨rfl, -⟩ := List.cons.inj heq
      exact absurd List.mem_cons_self hbody
    · rw [partition_append hbody]
      dsimp only
      rw [hdirective]
  obtain ⟨n, hn⟩ : ∃ n,
      ('%' :: (spec ++ ['r'] ++ ',' :: (layer ++ '.' :: field) ++ ['%'])).length = n + 1 := ⟨_, rfl⟩
  unfold parse
  rw [hn, loop_piece rfl hpiece, loop_end rfl]
  rfl

end Formats

/-! ## What a format of one part says -/

variable {R : Registry} {Item τ : Type} {T : Tables Item} {py : Python Item τ} {link : ProtoId}
  {frames : List (Bytes × τ)}

/-- A format of one part. -/
theorem render_one (src : Source Raised) (part : Part) : render src [part] = part.render src := by
  rw [render]
  cases part.render src with
  | error e => rfl
  | ok out => simp [render, Except.map]

/-- Where neither side raises, lists that are the same are so at each place. -/
theorem of_mapM_eq {α β : Type} {f g : α → Except Raised β} {l : List α} (hf : ∀ a ∈ l, ∃ b, f a = .ok b)
    (hg : ∀ a ∈ l, ∃ b, g a = .ok b) (h : l.mapM f = l.mapM g) : ∀ a ∈ l, f a = g a := by
  induction l with
  | nil => exact fun a ha => absurd ha List.not_mem_nil
  | cons a l ih =>
    -- all succeed, so the two lists are compared element by element
    have hok : ∀ {k : α → Except Raised β} {l : List α}, (∀ a ∈ l, ∃ b, k a = .ok b) →
        ∃ bs, l.mapM k = .ok bs := by
      intro k l hk
      induction l with
      | nil => exact ⟨[], rfl⟩
      | cons a l ih =>
        obtain ⟨hka, hk⟩ := List.forall_mem_cons.1 hk
        obtain ⟨b, hb⟩ := hka
        obtain ⟨bs, hbs⟩ := ih hk
        refine ⟨b :: bs, ?_⟩
        rw [List.mapM_cons, hb, hbs]
        rfl
    obtain ⟨⟨b, hb⟩, hf⟩ := List.forall_mem_cons.1 hf
    obtain ⟨⟨c, hc⟩, hg⟩ := List.forall_mem_cons.1 hg
    obtain ⟨bs, hbs⟩ := hok hf
    obtain ⟨cs, hcs⟩ := hok hg
    rw [List.mapM_cons, List.mapM_cons, hb, hc, hbs, hcs] at h
    obtain ⟨rfl, rfl⟩ := List.cons.inj (Except.ok.inj h)
    exact List.forall_mem_cons.2 ⟨hb.trans hc.symm, ih hf hg (hbs.trans hcs.symm)⟩

variable (R T str) in
/-- The names of layers and fields are identifiers. -/
structure Words : Prop where
  layer : ∀ p, IsWord (T.name p)
  field : ∀ {p field}, field ∈ all_field_names R p → IsWord field
  identifier : ∀ {w}, IsWord w → str.isidentifier w = true

variable (py) in
/-- What Python writes: a text as it is, octets as no identifier, of flags under `%d` their bits, of a
quotient no integer, of pairs no bare values. -/
structure Writes : Prop where
  text : ∀ t, py.str (.str t) = t
  octets : ∀ b, ¬IsWord (py.str (.bytes b))
  decimal : ∀ bits names, ∃ t, py.percent ['d'] (.flags bits names) = some t
  decimal_inj : ∀ {bits bits' names}, py.percent ['d'] (.flags bits names) =
    py.percent ['d'] (.flags bits' names) → bits = bits'
  float : ∀ n m scale, py.str (.quotient n scale) ≠ py.str (.int m)
  listed : ∀ l ≠ [], py.str (.values l) ≠ py.str (.items l)

/-- Flags, and what is not there, are written under `%d`. -/
theorem Writes.shown (hwrites : Writes py) (names : List Text) (bits : Option ℕ) :
    ∃ t, apply py (bits.map fun bits => .flags bits names) ['d'] = .ok t := by
  cases bits with
  | none => exact ⟨_, rfl⟩
  | some bits =>
    obtain ⟨t, ht⟩ := hwrites.decimal bits names
    refine ⟨t, ?_⟩
    show (py.percent ['d'] (.flags bits names)).elim _ _ = _
    rw [ht]
    rfl

theorem Writes.shown_inj (hwrites : Writes py) {names : List Text} {bits bits' : ℕ}
    (h : apply py (some (.flags bits names)) ['d'] = apply py (some (.flags bits' names)) ['d']) :
    bits = bits' := by
  change (py.percent ['d'] (.flags bits names)).elim _ _ = (py.percent ['d'] (.flags bits' names)).elim _ _ at h
  refine @Writes.decimal_inj _ _ _ hwrites _ _ names ?_
  obtain ⟨t, ht⟩ := hwrites.decimal bits names
  obtain ⟨t', ht'⟩ := hwrites.decimal bits' names
  rw [ht, ht'] at h ⊢
  rw [Except.ok.inj h]

variable (R T py link frames str) in
/-- Both entry points render the same of every format, or both raise. -/
def Agree : Prop := ∀ fmt, sprintf_list R T py link str frames fmt =
  frames.mapM fun frame => sprintf R T py link str frame fmt

section Necessary

variable (hreg : Regular R T) (hagree : Agree str R T py link frames)

include hreg hagree

/-- A part that columns answer renders the same of rows and of packets. -/
theorem agree_one {fmt : Text} {part : Part} {need : List Key} (hparse : parse str fmt = .ok [part])
    (hplan : part.plan R T [] = some need) :
    ∃ cols, resolve R T need = some cols ∧
      frames.mapM (fun frame => part.render (ColSource R T py link cols frame)) =
        frames.mapM fun frame => part.render (PktSource R T py link frame) := by
  have hplan : plan R T [part] [] = some need := by
    rw [plan, hplan]
    rfl
  obtain ⟨cols, hcols⟩ := resolve_of_resolvable
    ((plan_grows hreg [part] hplan).2 fun k hk => absurd hk List.not_mem_nil)
  have h := hagree fmt
  unfold sprintf_list sprintf at h
  rw [hparse] at h
  unfold render_list at h
  dsimp only at h
  rw [hplan] at h
  dsimp only at h
  rw [hcols] at h
  simp only [render_one] at h
  exact ⟨cols, hcols, h⟩

variable (hwords : Words str R T) {p : ProtoId} (hfield : field ∈ all_field_names R p)

include hwords hfield

/-- A stored value is shown of a row as of the packet, where neither raises. -/
theorem stored_of_agree (spec : Text) (hcomma : ',' ∉ spec) (hpercent : '%' ∉ spec) :
    ∃ need cols, resolve R T need = some cols ∧
      (T.name p, column_key R T (T.name p) field true) ∈ need ∧
      ((∀ frame ∈ frames, ∃ t, (col_value R T link cols frame.1 (T.name p) field true).bind
          (apply py · spec) = .ok t) →
        (∀ frame ∈ frames, ∃ t, (pkt_value R T link frame.1 (some (T.name p)) 1 field true).bind
          (apply py · spec) = .ok t) →
        ∀ frame ∈ frames, (col_value R T link cols frame.1 (T.name p) field true).bind (apply py · spec) =
          (pkt_value R T link frame.1 (some (T.name p)) 1 field true).bind (apply py · spec)) := by
  have hp := T.by_name_name p
  have hplan : (Part.fld (some (T.name p)) 1 field spec true).plan R T [] =
      some [(T.name p, column_key R T (T.name p) field true)] := by
    unfold Part.plan column_fields
    simp [hp, hfield, put]
  obtain ⟨cols, hcols, h⟩ := agree_one hreg hagree
    (parse_stored (hwords.layer p) (hwords.field hfield) hcomma hpercent
      (hwords.identifier (hwords.layer p)) (hwords.identifier (hwords.field hfield))) hplan
  exact ⟨_, cols, hcols, List.mem_singleton_self _, fun hcol hpkt => of_mapM_eq hcol hpkt h⟩

omit hreg hagree hwords hfield in
theorem apply_nil (v : Option (PyValue Item)) : ∃ t, apply py v [] = .ok t := by
  cases v with
  | none => exact ⟨_, rfl⟩
  | some v =>
    refine ⟨py.str v, ?_⟩
    unfold apply
    exact if_pos rfl

variable (hplain : ∀ frame ∈ frames, Unmodelled R T link frame.1)

include hplain

/-- No field that is there is called as the view's own `name`. -/
theorem unnamed_of_agree (hwrites : Writes py) : ∀ frame ∈ frames, ∀ l,
    find_layer (Packet.dissect R frame.1 link) p = some l → field ≠ NAME := by
  rintro frame hframe l hl rfl
  have hp := T.by_name_name p
  obtain ⟨hflags, hparsed, hbytes⟩ := hreg.name_bytes (p := p)
  obtain ⟨need, cols, hcols, hk, hsame⟩ := stored_of_agree hreg hagree hwords hfield []
    List.not_mem_nil List.not_mem_nil
  have hcol := fun frame : Bytes × τ => col_value_plain link frame.1 hreg hcols hp hfield (.inl rfl) hk
  have hpkt : ∀ frame ∈ frames, ∃ v, pkt_value R T link frame.1 (some (T.name p)) 1 NAME true = .ok v := by
    intro frame hframe
    cases hl : find_layer (Packet.dissect R frame.1 link) p with
    | none => exact ⟨none, pkt_value_absent hp hl true⟩
    | some l =>
      rw [pkt_value_found (hplain frame hframe) hp hl, if_neg (by simp), layer_view_name hl]
      exact ⟨_, rfl⟩
  have hsame := hsame
    (fun frame _ => by
      obtain ⟨r, -, c, -, -, hvalue⟩ := hcol frame
      rw [hvalue, hflags, of_cell_none]
      exact apply_nil _)
    (fun frame hframe => by
      obtain ⟨v, hv⟩ := hpkt frame hframe
      rw [hv]
      exact apply_nil v) frame hframe
  obtain ⟨r, hr, c, rfl, -, hvalue⟩ := hcol frame
  -- the packet answers with the layer's name, the row with a field's value
  have hview : pkt_value R T link frame.1 (some (T.name p)) 1 NAME true = .ok (some (.str (T.name p))) := by
    rw [pkt_value_found (hplain frame hframe) hp hl, if_neg (by simp), layer_view_name hl]
  rw [if_neg hparsed, hflags, of_cell_none, col_cell_field hl hr] at hvalue
  rw [hvalue, hview] at hsame
  have hword := hwords.layer p
  cases hf : first_field R link frame.1 l p NAME with
  | none =>
    rw [hf] at hsame
    have htext : "??".toList = py.str (.str (T.name p)) := Except.ok.inj hsame
    rw [hwrites.text] at htext
    exact absurd (htext ▸ hword) (by decide)
  | some f =>
    have hfound := (Option.filter_eq_some_iff.1 hf).1
    have hname := List.find?_some hfound
    have hkind := hbytes _ f (List.mem_of_find?_eq_some hfound) (by rw [eq_of_beq hname, String.toList_ofList])
    rw [hf, Option.map_some] at hsame
    unfold decode at hsame
    rw [hkind] at hsame
    have htext : py.str (.bytes _) = py.str (.str (T.name p)) := Except.ok.inj hsame
    rw [hwrites.text] at htext
    exact hwrites.octets _ (htext ▸ hword)

variable (hname : field ≠ NAME)

include hname

/-- A field is present in a row where it is in the packet. -/
theorem present_of_agree : ∀ frame ∈ frames, ∀ l, find_layer (Packet.dissect R frame.1 link) p = some l →
    (parsed T p field ∨ (first_field R link frame.1 l p field).isSome ↔
      field.head? ≠ some '_' ∧ (parsed T p field ∨
        ((Packet.dissect R frame.1 link).active_field R l (String.ofList field)).isSome)) := by
  have hp := T.by_name_name p
  have hplan : (Part.cond (T.name p) (some field) [.lit ['x']]).plan R T [] =
      some [(T.name p, field)] := by
    unfold Part.plan column_fields
    rw [hp]
    simp [hfield, plan, Part.plan, put]
  have hk : (T.name p, field) ∈ [(T.name p, field)] := List.mem_singleton_self _
  obtain ⟨cols, hcols, h⟩ := agree_one hreg hagree
    (parse_condition (hwords.layer p) (hwords.field hfield)) hplan
  -- the condition shows `x` where the field is present, and nothing elsewhere
  have hrender : ∀ (src : Source Raised) b, src.present (T.name p) (some field) = .ok b →
      (Part.cond (T.name p) (some field) [.lit ['x']]).render src = .ok (if b then ['x'] else []) := by
    intro src b hb
    rw [Part.render, hb]
    cases b with
    | true => rfl
    | false => rfl
  have hrow := fun frame : Bytes × τ => hrender _ _ (col_present py link frame hreg hcols hp hfield hk)
  have hpkt := fun (frame : Bytes × τ) hframe =>
    hrender _ _ (pkt_present py link frame hreg hp (hplain frame hframe) hfield hname)
  intro frame hframe l hl
  have heq := of_mapM_eq (fun frame _ => ⟨_, hrow frame⟩) (fun frame hframe => ⟨_, hpkt frame hframe⟩) h
    frame hframe
  rw [hrow, hpkt frame hframe, hl, Option.any_some, Option.any_some] at heq
  by_cases hcol : parsed T p field ∨ (first_field R link frame.1 l p field).isSome = true
  · by_cases hread : field.head? ≠ some '_' ∧ (parsed T p field ∨
        ((Packet.dissect R frame.1 link).active_field R l (String.ofList field)).isSome = true)
    · exact iff_of_true hcol hread
    · rw [decide_eq_true hcol, decide_eq_false hread] at heq
      cases heq
  · by_cases hread : field.head? ≠ some '_' ∧ (parsed T p field ∨
        ((Packet.dissect R frame.1 link).active_field R l (String.ofList field)).isSome = true)
    · rw [decide_eq_false hcol, decide_eq_true hread] at heq
      cases heq
    · exact iff_of_false hcol hread

/-- As it is, a value that carries no flags is shown of a row as of the packet. -/
theorem shown_of_agree (hflags : flag_names R T p field = none) :
    ∀ frame ∈ frames, ∀ l, find_layer (Packet.dissect R frame.1 link) p = some l →
      ∃ r, FieldRef.resolve R p (String.ofList field) = some r ∧ ∃ v,
        layer_view R T link frame.1 l field = .ok v ∧
        apply py (cell_to_py (names_at R T link (.of (if parsed T p field then .Options p else .Field p r)) frame.1)
          (col_cell R T link (.of (if parsed T p field then .Options p else .Field p r)) frame.1)) [] =
          apply py v [] := by
  have hp := T.by_name_name p
  obtain ⟨need, cols, hcols, hk, hsame⟩ := stored_of_agree hreg hagree hwords hfield []
    List.not_mem_nil List.not_mem_nil
  have hcol := fun frame : Bytes × τ => col_value_plain link frame.1 hreg hcols hp hfield
    (.inl rfl) hk
  -- The packet has a value, since the column has one to agree with.
  have hpkt : ∀ frame ∈ frames, ∃ v, pkt_value R T link frame.1 (some (T.name p)) 1 field true = .ok v := by
    intro frame hframe
    have hpresent : (pkt_value R T link frame.1 (some (T.name p)) 1 field true).map Option.isSome = _ :=
      pkt_present py link frame hreg hp (hplain frame hframe) hfield hname
    cases hv : pkt_value R T link frame.1 (some (T.name p)) 1 field true with
    | error e =>
      rw [hv] at hpresent
      cases hpresent
    | ok v => exact ⟨v, rfl⟩
  intro frame hframe l hl
  have hsame := hsame
    (fun frame _ => by
      obtain ⟨r, -, c, -, -, hvalue⟩ := hcol frame
      rw [hvalue, hflags, of_cell_none]
      exact apply_nil _)
    (fun frame hframe => by
      obtain ⟨v, hv⟩ := hpkt frame hframe
      rw [hv]
      exact apply_nil _) frame hframe
  obtain ⟨r, hr, c, rfl, -, hvalue⟩ := hcol frame
  obtain ⟨v, hv⟩ := hpkt frame hframe
  rw [hvalue, hflags, of_cell_none, hv] at hsame
  rw [pkt_value_found (hplain frame hframe) hp hl, if_neg (by simp)] at hv
  exact ⟨r, hr, v, hv, hsame⟩

/-- Of a flags field a row has the bits the packet has. -/
theorem bits_of_agree (hwrites : Writes py) {names : List Text} (hflags : flag_names R T p field = some names)
    (hhead : field.head? ≠ some '_') :
    ∀ frame ∈ frames, ∀ l, find_layer (Packet.dissect R frame.1 link) p = some l →
      ∀ f ∈ first_field R link frame.1 l p field,
        Named (BitVec.ofNat 64 (Packet.read_uint ((Packet.dissect R frame.1 link).header l) f)) names := by
  have hp := T.by_name_name p
  have hopen := hreg.open_of hfield hname
  have hparsed : ¬parsed T p field := by
    intro hparsed
    rw [(hreg.parsed_apart hparsed).1] at hflags
    cases hflags
  obtain ⟨need, cols, hcols, hk, hsame⟩ := stored_of_agree hreg hagree hwords hfield ['d']
    (by decide) (by decide)
  have hcol : ∀ frame : Bytes × τ, ∃ r, FieldRef.resolve R p (String.ofList field) = some r ∧
      col_value R T link cols frame.1 (T.name p) field true =
        of_cell (some names) (cell_to_py (names_at R T link (.of (.Field p r)) frame.1)
          (col_cell R T link (.of (.Field p r)) frame.1)) := by
    intro frame
    obtain ⟨r, hr, c, rfl, -, hvalue⟩ := col_value_plain link frame.1 hreg hcols hp hfield
      (.inl rfl) hk
    rw [if_neg hparsed, hflags] at hvalue
    exact ⟨r, hr, hvalue⟩
  -- `%d` refuses neither side's value, so the texts that agree are both there
  have hrow : ∀ frame ∈ frames, ∃ t, (col_value R T link cols frame.1 (T.name p) field true).bind
      (apply py · ['d']) = .ok t := by
    intro frame _
    obtain ⟨r, hr, hvalue⟩ := hcol frame
    rw [hvalue]
    cases hl : find_layer (Packet.dissect R frame.1 link) p with
    | none =>
      rw [(col_cell_absent hl r).2.2]
      exact hwrites.shown names none
    | some l =>
      cases hf : first_field R link frame.1 l p field with
      | none =>
        rw [col_cell_field hl hr, hf]
        exact hwrites.shown names none
      | some f =>
        obtain ⟨bits, -, hcell⟩ := of_cell_flags hreg hl hr hflags hf
        rw [hcell]
        exact hwrites.shown names (some bits)
  have hread : ∀ frame ∈ frames, ∀ l, find_layer (Packet.dissect R frame.1 link) p = some l →
      pkt_value R T link frame.1 (some (T.name p)) 1 field true =
        .ok (((Packet.dissect R frame.1 link).active_field R l (String.ofList field)).map fun f =>
          .flags (Packet.read_uint ((Packet.dissect R frame.1 link).header l) f) names) := by
    intro frame hframe l hl
    rw [pkt_value_found (hplain frame hframe) hp hl, if_neg (by simp), layer_view_flags hreg hl hflags hhead hopen]
  have hpkt : ∀ frame ∈ frames, ∃ t, (pkt_value R T link frame.1 (some (T.name p)) 1 field true).bind
      (apply py · ['d']) = .ok t := by
    intro frame hframe
    cases hl : find_layer (Packet.dissect R frame.1 link) p with
    | none =>
      rw [pkt_value_absent hp hl]
      exact hwrites.shown names none
    | some l =>
      rw [hread frame hframe l hl]
      cases (Packet.dissect R frame.1 link).active_field R l (String.ofList field) with
      | none => exact hwrites.shown names none
      | some f => exact hwrites.shown names (some _)
  intro frame hframe l hl f hf
  obtain ⟨r, hr, hvalue⟩ := hcol frame
  obtain ⟨bits, hbits, hcell⟩ := of_cell_flags hreg hl hr hflags hf
  have heq := hsame hrow hpkt frame hframe
  rw [hvalue, hcell, hread frame hframe l hl, active_of_first hl hf] at heq
  obtain rfl := hwrites.shown_inj heq
  obtain ⟨-, hnames⟩ := hreg.flags_found hflags hf
  exact (bits_of_flags hreg hnames _ (read_uint_lt _ f)).1 hbits

/-- The first descriptor of a name decides. -/
theorem first_of_agree (hparsed : ¬parsed T p field) (hhead : field.head? ≠ some '_') :
    ∀ frame ∈ frames, ∀ l, find_layer (Packet.dissect R frame.1 link) p = some l →
      first_field R link frame.1 l p field =
        (Packet.dissect R frame.1 link).active_field R l (String.ofList field) := by
  intro frame hframe l hl
  have hiff := present_of_agree hreg hagree hwords hfield hplain hname frame hframe l hl
  cases hf : first_field R link frame.1 l p field with
  | some f => rw [active_of_first hl hf]
  | none =>
    cases hactive : (Packet.dissect R frame.1 link).active_field R l (String.ofList field) with
    | none => rfl
    | some g =>
      rw [hf, hactive] at hiff
      simp [hparsed, hhead] at hiff

/-- A field with a scale is not there. -/
theorem unscaled_of_agree (hwrites : Writes py) (hparsed : ¬parsed T p field)
    (hflags : flag_names R T p field = none) (hhead : field.head? ≠ some '_')
    (hscale : scale R T p field ≠ 0) :
    ∀ frame ∈ frames, ∀ l, find_layer (Packet.dissect R frame.1 link) p = some l →
      first_field R link frame.1 l p field = none := by
  intro frame hframe l hl
  have hopen := hreg.open_of hfield hname
  by_contra hsome
  obtain ⟨f, hf⟩ := Option.ne_none_iff_exists'.1 hsome
  have hactive := active_of_first hl hf
  obtain ⟨⟨framed, hmem⟩, hcalled⟩ := active_name hl hactive
  have hkind := hreg.scaled_uint hscale framed f hmem hcalled
  obtain ⟨r, hr, v, hv, hsame⟩ := shown_of_agree hreg hagree hwords hfield hplain hname hflags frame hframe l hl
  rw [layer_view_field hl hopen hparsed hhead, hactive, hflags] at hv
  dsimp only at hv
  rw [if_neg hscale] at hv
  rw [if_neg hparsed, col_cell_field hl hr, hf, Option.map_some] at hsame
  unfold decode at hv hsame
  rw [hkind] at hv hsame
  obtain rfl := Except.ok.inj hv
  exact hwrites.float _ _ _ (Except.ok.inj hsame).symm

/-- No bare values are there. -/
theorem listed_of_agree (hwrites : Writes py) (hparsed : parsed T p field) (hlist : T.scalar_list p = true) :
    ∀ frame ∈ frames, ∀ l, find_layer (Packet.dissect R frame.1 link) p = some l →
      options_at T.parsers frame.1 (Packet.dissect_spans R.layers frame.1 link) l = some [] := by
  intro frame hframe l hl
  have hopen := hreg.open_of hfield hname
  obtain ⟨hflags, hhead⟩ := hreg.parsed_apart hparsed
  obtain ⟨items, hitems⟩ := options_found hl hparsed
  obtain ⟨r, hr, v, hv, hsame⟩ := shown_of_agree hreg hagree hwords hfield hplain hname hflags frame hframe l hl
  by_cases hne : items = []
  · rw [hitems, hne]
  · rw [layer_view_parsed hl hopen hparsed hhead hitems, if_pos ⟨hlist, hne⟩] at hv
    obtain rfl := Except.ok.inj hv
    rw [if_pos hparsed, col_cell_options hl, hitems] at hsame
    exact absurd (Except.ok.inj hsame).symm (hwrites.listed items hne)

end Necessary

/-- **Bulk rendering is that of each packet, whatever the format, exactly for the captures whose every
column answers for what the frame holds** — and of no frame, where every format is read. Of a frame with
a layer that a class in Python decodes nothing is said: a column never asks the class. -/
theorem bulk_agrees_iff (hreg : Regular R T) (hwords : Words str R T) (hwrites : Writes py)
    (hplain : ∀ frame ∈ frames, Unmodelled R T link frame.1) :
    (∀ fmt, sprintf_list R T py link str frames fmt =
        frames.mapM fun frame => sprintf R T py link str frame fmt) ↔
      (frames ≠ [] ∨ ∀ fmt, (parse str fmt).isOk = true) ∧
        ∀ frame ∈ frames, Answered R T link frame.1 := by
  -- Necessary: each condition is read off one template that shows the value it speaks of.
  constructor
  · intro hagree
    refine ⟨?_, fun frame hframe p field hfield l hl => ?_⟩
    · by_cases hne : frames = []
      · right
        intro fmt
        have h := hagree fmt
        unfold sprintf_list at h
        rw [hne] at h
        cases hparse : parse str fmt with
        | ok parts => rfl
        | error e =>
          rw [hparse] at h
          cases h
      · exact .inl hne
    · have hname := unnamed_of_agree hreg hagree hwords hfield hplain hwrites frame hframe l hl
      exact {
        first := fun hparsed hhead => first_of_agree hreg hagree hwords hfield hplain hname hparsed hhead frame hframe l hl
        hidden := fun hhead => by
          have hiff := present_of_agree hreg hagree hwords hfield hplain hname frame hframe l hl
          by_contra hsome
          exact (hiff.1 (.inr (Option.isSome_iff_ne_none.2 hsome))).1 hhead
        named := fun names hflags hhead =>
          bits_of_agree hreg hagree hwords hfield hplain hname hwrites hflags hhead frame hframe l hl
        unscaled := fun hparsed hflags hhead hscale =>
          unscaled_of_agree hreg hagree hwords hfield hplain hname hwrites hparsed hflags hhead hscale frame hframe l hl
        listed := fun hparsed hlist =>
          listed_of_agree hreg hagree hwords hfield hplain hname hwrites hparsed hlist frame hframe l hl
        unnamed := hname }
  -- Sufficient: part by part.
  · rintro ⟨hread, hans⟩ fmt
    exact sprintf_list_eq hreg hplain hans str (hread.imp_right fun h => h fmt)

/-! ## The core layers -/

def core_names : List (ProtoId × Text) :=
  [(.Raw, "Raw"), (.Padding, "Padding"), (.Ether, "Ether"), (.Llc, "LLC"), (.Arp, "ARP"),
    (.Dot1Q, "Dot1Q"), (.Mpls, "MPLS"), (.PppoeDisc, "PPPoED"), (.Pppoe, "PPPoE"), (.Ppp, "PPP"),
    (.Ipv4, "IP"), (.Ipv6, "IPv6"), (.HopByHop, "IPv6ExtHdrHopByHop"), (.Routing, "IPv6ExtHdrRouting"),
    (.Fragment, "IPv6ExtHdrFragment"), (.DestOpt, "IPv6ExtHdrDestOpt"), (.Icmp, "ICMP"),
    (.Icmpv6, "ICMPv6"), (.Gre, "GRE"), (.Udp, "UDP"), (.Tcp, "TCP"), (.Dns, "DNS"), (.Http, "HTTP"),
    (.Tls, "TLS"), (.Bootp, "BOOTP"), (.Vxlan, "VXLAN"), (.Geneve, "GENEVE"), (.GtpU, "GTP_U_Header"),
    (.ErspanII, "ERSPAN_II"), (.ErspanIII, "ERSPAN_III")].map fun x => (x.1, x.2.toList)

/-- A layer of the core by its name; the others are told apart by how long theirs are. -/
def core_name : ProtoId → Text
  | .other n => 'L' :: List.replicate n '_'
  | p => (((core_names.find? fun x => x.1 = p).map Prod.snd)).getD []

def core_by_name (t : Text) : Option ProtoId :=
  ((core_names.find? fun x => x.2 = t).map Prod.fst).or
    (if t.head? = some 'L' ∧ t.tail.all (· = '_') then some (.other t.tail.length) else none)

theorem core_name_mem (p : ProtoId) : (∃ n, p = .other n) ∨ (p, core_name p) ∈ core_names := by
  have hname : ∀ {o : Option (ProtoId × Text)}, core_names.find? (fun x => x.1 = p) = o → o.isSome →
      core_name p = (o.map Prod.snd).getD [] → (p, core_name p) ∈ core_names := by
    intro o ho hsome hname
    obtain ⟨x, rfl⟩ := Option.isSome_iff_exists.1 hsome
    have hproto : x.1 = p := by simpa using List.find?_some ho
    rw [hname, ← hproto]
    exact List.mem_of_find?_eq_some ho
  cases p with
  | other n => exact .inl ⟨n, rfl⟩
  | _ => exact .inr (hname rfl (by decide +kernel) rfl)

/-- The names are unequivocal. -/
theorem core_by_name_iff (t : Text) (p : ProtoId) : core_by_name t = some p ↔ core_name p = t := by
  constructor
  · intro h
    unfold core_by_name at h
    cases hfound : core_names.find? fun x => x.2 = t with
    | some x =>
      -- The named protocols are checked one by one.
      have hmem : ∀ x ∈ core_names, core_name x.1 = x.2 := by decide +kernel
      rw [hfound] at h
      obtain rfl := Option.some.inj h
      rw [hmem x (List.mem_of_find?_eq_some hfound)]
      simpa using List.find?_some hfound
    | none =>
      rw [hfound] at h
      change (if _ then _ else _) = _ at h
      split at h
      · rename_i hother
        obtain rfl := Option.some.inj h
        cases t with
        | nil => cases hother.1
        | cons c t =>
          obtain rfl := Option.some.inj hother.1
          have hrest : t = List.replicate t.length '_' :=
            List.eq_replicate_iff.2 ⟨rfl, by simpa using hother.2⟩
          exact congrArg (List.cons 'L') hrest.symm
      · cases h
  · rintro rfl
    have hknown : ∀ x ∈ core_names, core_by_name x.2 = some x.1 := by decide +kernel
    -- The others are underscores behind one letter, which no name of the table is.
    have hapart : ∀ x ∈ core_names, ¬(x.2.head? = some 'L' ∧ x.2.tail.all (· = '_')) := by decide +kernel
    obtain ⟨n, rfl⟩ | hmem := core_name_mem p
    · have hnone : (core_names.find? fun x => x.2 = 'L' :: List.replicate n '_') = none := by
        rw [List.find?_eq_none]
        intro x hx heq
        apply hapart x hx
        rw [of_decide_eq_true heq]
        simp
      unfold core_by_name core_name
      rw [hnone]
      simp
    · exact hknown _ hmem

/-- The slots, methods and properties of a layer's view, beside `name` and what every object has. -/
def view_attributes : List String :=
  ["_pkt", "_idx", "_name", "layers", "payload", "underlayer", "haslayer", "getlayer", "show_str", "show",
    "show2_str", "show2", "sprintf", "fields", "fields_desc", "default_fields", "get_field",
    "getfield_and_val", "summary", "raw_options"]

/-- The core layers without the regions they parse and without the classes in Python. -/
def core_tables : Tables Unit where
  by_name := core_by_name
  name := core_name
  by_name_iff := core_by_name_iff
  frame_free := by decide +kernel
  parsers := unparsed
  scalar_list _ := false
  flags f :=
    if f.kind ≠ .Flags then []
    else if f.bit_len = 9 then ["F", "S", "R", "P", "A", "U", "E", "C", "N"].map String.toList
    else ["MF", "DF", "evil"].map String.toList
  named f := f.name = "proto" ∧ f.bit_len = 8
  name_of _ f n :=
    if f.name = "proto" ∧ f.bit_len = 8 then
      ([(1, "icmp"), (6, "tcp"), (17, "udp")].find? fun x => x.1 = n).map fun x => x.2.toList
    else none
  bcd _ _ := false
  own t := t ∈ view_attributes.map String.toList ∨ t.take 2 = ['_', '_']
  dns_records _ _ _ := none
  dns_only := fun _ _ _ h => absurd h (by simp)
  py_modelled p := p = .Dns
  py_top _ _ := none

/-- The descriptors of a layer, under either framing. -/
def all_fields (R : Registry) (p : ProtoId) : List FieldDesc := R.fields_of p false ++ R.fields_of p true

theorem mem_all_fields {R : Registry} {p : ProtoId} {f : FieldDesc} :
    f ∈ all_fields R p ↔ ∃ framed, f ∈ R.fields_of p framed := by
  simp [all_fields]

/-- The descriptors of a core layer, each once: framing matters to one alone. -/
def core_fields (p : ProtoId) : List FieldDesc :=
  (core.desc p).fields ++ if p = .Dns then Packet.TCP_FIELDS else []

theorem mem_core_fields {p : ProtoId} {f : FieldDesc} (hf : f ∈ all_fields core p) : f ∈ core_fields p := by
  obtain ⟨framed, hf⟩ := mem_all_fields.1 hf
  unfold Registry.fields_of at hf
  unfold core_fields
  split at hf
  · rename_i hdns
    rw [if_pos hdns.1]
    exact List.mem_append_right _ hf
  · exact List.mem_append_left _ hf

/-- What is asked of the descriptors of a layer. -/
def core_checked (p : ProtoId) : Bool :=
  (core_fields p).all fun f =>
    decide (IsWord f.name.toList) && decide (f.name.toList ∉ sections ∧ f.name ∉ view_attributes ∧
      f.name.toList.take 2 ≠ ['_', '_'] ∧ f.name ≠ "name") &&
      (decide (f.kind ≠ .Flags) && !core_tables.named f ||
        (core_fields p).all fun g => decide (f.name = g.name →
          (f.kind = .Flags → g.kind = .Flags ∧ core_tables.flags g = core_tables.flags f) ∧
            (core_tables.named f → g.kind ≠ .Flags)))

/-- The finite check of the core's fields, protocol by protocol. -/
theorem core_checked_all (p : ProtoId) : core_checked p = true := by
  cases p with
  | other n =>
    have hfields : (core.desc (.other n)).fields =
        (counted n).elim [.var_bytes "load" 0] Packet.Counted.fields := by
      unfold Registry.desc
      dsimp only
      cases counted n with
      | none => rfl
      | some c => rfl
    unfold core_checked core_fields
    rw [hfields, if_neg (by simp)]
    cases counted n with
    | none => decide +kernel
    | some c => cases c <;> decide +kernel
  | _ => decide +kernel

/-- What the check says of one field: its name is a word, it is no section, and no other field of
the name has flags of its own. -/
theorem core_field {p : ProtoId} {f : FieldDesc} (hf : f ∈ all_fields core p) :
    IsWord f.name.toList ∧ (f.name.toList ∉ sections ∧ core_tables.own f.name.toList = false ∧
      f.name.toList ≠ NAME) ∧ ∀ g ∈ all_fields core p, f.name = g.name →
      (f.kind = .Flags → g.kind = .Flags ∧ core_tables.flags g = core_tables.flags f) ∧
        (core_tables.named f → g.kind ≠ .Flags) := by
  have h := List.all_eq_true.1 (core_checked_all p) f (mem_core_fields hf)
  rw [Bool.and_eq_true, Bool.and_eq_true, decide_eq_true_eq, decide_eq_true_eq, Bool.or_eq_true] at h
  obtain ⟨hsection, hown, hopen, hname⟩ := h.1.2
  refine ⟨h.1.1, ⟨hsection, ?_, fun h => hname (String.toList_inj.1 h)⟩, fun g hg => ?_⟩
  · apply decide_eq_false
    rintro (hmem | hmem)
    · obtain ⟨name, hname, heq⟩ := List.mem_map.1 hmem
      exact hown (String.toList_inj.1 heq ▸ hname)
    · exact hopen hmem
  obtain hplain | hall := h.2
  · rw [Bool.and_eq_true, decide_eq_true_eq, Bool.not_eq_true'] at hplain
    exact fun _ => ⟨fun h => absurd h hplain.1, fun h => absurd h (by simp [hplain.2])⟩
  · exact of_decide_eq_true (List.all_eq_true.1 hall g (mem_core_fields hg))

/-- The descriptor a flags field is known by. -/
theorem flag_names_some {p : ProtoId} {field : Text} {names : List Text}
    (h : flag_names R T p field = some names) :
    ∃ f ∈ all_fields R p, f.name.toList = field ∧ f.kind = .Flags ∧ T.flags f = names := by
  unfold flag_names at h
  obtain ⟨f, hf, rfl⟩ := Option.map_eq_some_iff.1 (Option.filter_eq_some_iff.1 h).1
  obtain ⟨hfound, hkind⟩ := Option.filter_eq_some_iff.1 hf
  refine ⟨f, ?_, ?_, of_decide_eq_true hkind, rfl⟩
  · unfold field_of at hfound
    rw [mem_all_fields]
    obtain hplain | ⟨-, hframed⟩ := Option.or_eq_some_iff.1 hfound
    · exact ⟨false, List.mem_of_find?_eq_some hplain⟩
    · exact ⟨true, List.mem_of_find?_eq_some hframed⟩
  · unfold field_of at hfound
    obtain hplain | ⟨-, hframed⟩ := Option.or_eq_some_iff.1 hfound
    · have hname := List.find?_some hplain
      rw [eq_of_beq hname, String.toList_ofList]
    · have hname := List.find?_some hframed
      rw [eq_of_beq hname, String.toList_ofList]

/-- The core's tables are regular. -/
theorem core_regular : Regular core core_tables where
  -- Each field is the finite check's, read off for one field of the core.
  one_flags := by
    intro p field names hflags framed f hf hname
    obtain ⟨g, hg, hgname, hkind, rfl⟩ := flag_names_some hflags
    obtain ⟨-, -, hsame⟩ := core_field hg
    exact (hsame f (mem_all_fields.2 ⟨framed, hf⟩) (String.toList_inj.1 (hgname.trans hname.symm))).1 hkind
  scaled_uint := by
    intro p field hscale
    simp [scale, core_tables] at hscale
  no_plus := by
    intro f n hn
    unfold core_tables at hn
    dsimp only at hn
    split at hn
    · cases hn
    · split at hn
      · revert n
        decide
      · revert n
        decide
  enumerated_apart := by
    intro p field h
    obtain ⟨f, hf, henum⟩ := List.any_eq_true.1 h
    obtain ⟨hnamed, hname⟩ := of_decide_eq_true henum
    have hproto : f.name = "proto" := (of_decide_eq_true hnamed).1
    refine ⟨?_, fun h => absurd h.2 Bool.false_ne_true, ?_⟩
    · by_contra hsome
      obtain ⟨names, hflags⟩ := Option.ne_none_iff_exists'.1 hsome
      obtain ⟨g, hg, hgname, hkind, -⟩ := flag_names_some hflags
      obtain ⟨-, -, hsame⟩ := core_field (mem_all_fields.2 ⟨false, hf⟩)
      exact (hsame g hg (String.toList_inj.1 (hname.trans hgname.symm))).2 hnamed hkind
    · rw [← hname, hproto]
      decide
  parsed_apart := fun h => absurd h.2 Bool.false_ne_true
  fields_start := by
    intro p field hfield
    obtain ⟨framed, f, hf, rfl⟩ := mem_all_field_names.1 hfield
    obtain ⟨hword, ⟨hsection, hown, -⟩, -⟩ := core_field (mem_all_fields.2 ⟨framed, hf⟩)
    refine ⟨hword.ne_nil, ?_, hsection, hown⟩
    intro hhead
    exact hword.not_mem (x := '%') (by decide) (List.mem_of_head? hhead)
  name_bytes := by
    intro p
    have hnone : ∀ framed, ∀ f ∈ core.fields_of p framed, f.name.toList ≠ NAME := by
      intro framed f hf
      exact (core_field (mem_all_fields.2 ⟨framed, hf⟩)).2.1.2.2
    refine ⟨?_, fun h => absurd h.2 Bool.false_ne_true, fun framed f hf h => absurd h (hnone framed f hf)⟩
    by_contra hsome
    obtain ⟨names, hflags⟩ := Option.ne_none_iff_exists'.1 hsome
    obtain ⟨g, hg, hgname, -⟩ := flag_names_some hflags
    exact absurd hgname (core_field hg).2.1.2.2

/-- And its names are words. -/
theorem core_words : Words .ascii core core_tables where
  layer := by
    intro p
    have hknown : ∀ x ∈ core_names, IsWord x.2 := by
      unfold IsWord
      decide +kernel
    -- A layer without a constructor has a letter and underscores for its name.
    obtain ⟨n, rfl⟩ | hmem := core_name_mem p
    · have hall : ∀ y ∈ List.replicate n '_', (decide (y.isAlphanum ∨ y = '_')) = true := by
        intro y hy
        rw [(List.mem_replicate.1 hy).2]
        decide
      show word ('L' :: List.replicate n '_') = _
      rw [word, if_pos (by decide), List.takeWhile_eq_self_iff.2 hall, List.dropWhile_eq_nil_iff.2 hall]
      rfl
    · exact hknown _ hmem
  field := by
    intro p field hfield
    obtain ⟨framed, f, hf, rfl⟩ := mem_all_field_names.1 hfield
    exact (core_field (mem_all_fields.2 ⟨framed, hf⟩)).1
  identifier := by
    intro w hw
    show ((word w).any fun m => decide (m.2 = [])) = true
    rw [hw]
    rfl

/-- The text of `n / scale`, of eight decimals at most. -/
def float_text (n scale : ℕ) : Text :=
  let decimals := (List.range 8).map fun i => Nat.digitChar (10 ^ (i + 1) * (n % scale) / scale % 10)
  let shown := (decimals.reverse.dropWhile (· = '0')).reverse
  Nat.toDigits 10 (n / scale) ++ '.' :: if shown = [] then ['0'] else shown

/-- `repr` of octets. -/
def bytes_text (b : Bytes) : Text :=
  let escape (x : UInt8) : Text :=
    if 32 ≤ x.toNat ∧ x.toNat < 127 ∧ x ≠ 39 ∧ x ≠ 92 then [Char.ofNat x.toNat] else '\\' :: 'x' :: Repeat.hex2 x.toNat
  'b' :: '\'' :: b.flatMap escape ++ ['\'']

/-- `str`, and `%` of an integer or a text. -/
def python : Python Unit Unit where
  str v :=
    match v with
    | .int n => Nat.toDigits 10 n
    | .str t => t
    | .bytes b => bytes_text b
    | .flags bits names => Show.render_flags (BitVec.ofNat 64 bits) names
    | .quotient n scale => float_text n scale
    | .items l => '[' :: [',', ' '].intercalate (l.map fun _ => "(0, b'')".toList) ++ [']']
    | .values l => '[' :: [',', ' '].intercalate (l.map fun _ => "b''".toList) ++ [']']
    | .own name => '<' :: name ++ ['>']
    | .object id => '<' :: Nat.toDigits 10 id ++ ['>']
  percent spec v :=
    match v with
    | .int n => if spec = ['d'] then some (Nat.toDigits 10 n) else none
    | .flags bits _ => if spec = ['d'] then some (Nat.toDigits 10 bits) else none
    | .str t => if spec = ['s'] then some t else none
    | _ => none
  clock _ := "00:00:00.000000".toList

/-- Python's conversions, as far as the templates here use them. -/
theorem python_writes : Writes python where
  text _ := rfl
  octets b h := h.not_mem (x := '\'') (by decide) (List.mem_cons_of_mem 'b' List.mem_cons_self)
  decimal _ _ := ⟨_, rfl⟩
  -- Decimal texts are equal only for equal numbers, and a fraction has a point, which they have
  -- not.
  decimal_inj := by
    intro bits bits' names h
    have hdigits : Nat.toDigits 10 bits = Nat.toDigits 10 bits' := Option.some.inj h
    rw [← Nat.ofDigitChars_ten_toDigits (n := bits), hdigits, Nat.ofDigitChars_ten_toDigits]
  float := by
    intro n m scale h
    have hdot : '.' ∈ Nat.toDigits 10 m := by
      have hmem : '.' ∈ float_text n scale := by simp [float_text]
      exact (show float_text n scale = Nat.toDigits 10 m from h) ▸ hmem
    exact absurd (Nat.isDigit_of_mem_toDigits (by decide) (by decide) hdot) (by decide)
  listed := by
    intro l hne h
    cases l with
    | nil => exact hne rfl
    -- A list's text goes on behind its first element, whatever that is.
    | cons x l =>
      have hfront : ∀ (a : Text) (as : List Text), ∃ r, [',', ' '].intercalate (a :: as) = a ++ r := by
        intro a as
        cases as with
        | nil => exact ⟨[], by simp [List.intercalate]⟩
        | cons b as => exact ⟨_, by simp [List.intercalate]; rfl⟩
      obtain ⟨r, hr⟩ := hfront "b''".toList (l.map fun _ => "b''".toList)
      obtain ⟨r', hr'⟩ := hfront "(0, b'')".toList (l.map fun _ => "(0, b'')".toList)
      unfold python at h
      dsimp only at h
      rw [List.map_cons, List.map_cons, hr, hr'] at h
      simp at h

/-- A frame of three raw octets is answered. -/
theorem answered_raw : Answered core core_tables .Raw [1, 2, 3] := by
  intro p field hfield l hl
  -- The frame is one layer, which has one field.
  have hspans : Packet.dissect_spans core.layers [1, 2, 3] .Raw = [⟨.Raw, 0, 3, 3⟩] := by decide +kernel
  obtain ⟨s, hs, rfl, -⟩ := span_found hl
  rw [hspans] at hs
  obtain ⟨rfl, rfl⟩ : l = 0 ∧ s = ⟨.Raw, 0, 3, 3⟩ := by
    cases l with
    | zero => exact ⟨rfl, (Option.some.inj hs).symm⟩
    | succ l => cases hs
  obtain rfl : field = "load".toList := by
    have hnames : all_field_names core .Raw = ["load".toList] := by decide +kernel
    exact List.mem_singleton.1 (hnames ▸ hfield)
  have hflags : flag_names core core_tables .Raw "load".toList = none := by decide +kernel
  have hparsed : ∀ field, ¬parsed core_tables .Raw field := fun field h => absurd h.2 Bool.false_ne_true
  exact {
    first := by
      intro _ _
      have hsome : (first_field core .Raw [1, 2, 3] 0 .Raw "load".toList).isSome = true := by decide +kernel
      obtain ⟨f, hf⟩ := Option.isSome_iff_exists.1 hsome
      rw [hf]
      exact (active_of_first hl hf).symm
    hidden := fun h => absurd h (by decide)
    named := by
      intro names h
      rw [hflags] at h
      cases h
    unscaled := fun _ _ _ h => absurd rfl h
    listed := fun h => absurd h (hparsed _)
    unnamed := by decide }

/-- Of a frame of three octets that no layer takes every column answers, and the rows render. -/
theorem bulk_agrees_raw :
    sprintf_list core core_tables python .Raw .ascii [([1, 2, 3], ())] "\x7bRaw.load:%Raw.load%\x7d".toList =
      [([1, 2, 3], ())].mapM fun frame =>
        sprintf core core_tables python .Raw .ascii frame "\x7bRaw.load:%Raw.load%\x7d".toList :=
  (bulk_agrees_iff core_regular core_words python_writes fun frame hframe i => by
    rw [List.mem_singleton.1 hframe]
    exact Option.bind_eq_none_iff.2 fun _ _ => rfl).2
    ⟨.inl (List.cons_ne_nil _ _), fun frame hframe => by
      rw [List.mem_singleton.1 hframe]
      exact answered_raw⟩ _

/-- A time exceeded's `unused` is there in the packet and not in the row: the first of three decides. -/
theorem unused_condition_missed :
    sprintf_list core core_tables python .Ether .ascii [(time_exceeded, ())] "\x7bICMP.unused:x\x7d".toList =
        .ok [[]] ∧
      ([(time_exceeded, ())].mapM fun frame =>
        sprintf core core_tables python .Ether .ascii frame "\x7bICMP.unused:x\x7d".toList) = .ok [['x']] := by
  constructor
  · decide +kernel
  · decide +kernel

end Wiry.Report
