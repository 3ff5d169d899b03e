/-
What becomes of a name between the wire and the wire: `dns_get_str` reads it into
presentation form, the field stores that, and `dns_encode` writes it out again
unless it takes the text for an encoded name.

The decision is made by the last octet of the text alone, which is what
`name_rebuilt_iff` states: with its two top bits set the field writes the text
as it is, else it encodes it.
-/
import Wiry.Dns.Names

set_option autoImplicit false

namespace Wiry.Dns

open Packet (Bytes slice)

/-- Labels as an uncompressed name on the wire. -/
def wire_name (labels : List Bytes) : Bytes := labels.flatMap wire_label ++ [0]

/-- A domain name: labels of 1 to 63 octets, no more than 255 octets on the wire. -/
structure Name where
  labels : List Bytes
  bounds : ∀ l ∈ labels, 1 ≤ l.length ∧ l.length ≤ 63
  octets : (wire_name labels).length ≤ 255

/-- A name's uncompressed wire form. -/
def Name.wire (n : Name) : Bytes := wire_name n.labels

/-- What the field makes of a name it read from `w` alone and then writes. -/
def rebuilt (w : Bytes) : Except NameError Bytes :=
  (dns_get_str w []).map fun r => i2m (h2i r.1)

/-- The last octet of the last label does not have its two top bits set. -/
def Name.EndsPlain (n : Name) : Prop :=
  ∀ o ∈ n.labels.getLast?.bind List.getLast?, o &&& 0xC0 ≠ 0xC0

instance (n : Name) : Decidable n.EndsPlain := by
  unfold Name.EndsPlain
  infer_instance

/-! ## Reading a wire name -/

theorem short_label : ∀ n < 64, UInt8.ofNat n &&& 0xC0 = 0 := by decide

theorem length_octet : ∀ n < 64, (UInt8.ofNat n).toNat = n := by decide

/-- The labels of a wire name stand where they were written. -/
theorem labelsAt_wire {ls : List Bytes} (hls : ∀ l ∈ ls, 1 ≤ l.length ∧ l.length ≤ 63)
    (f tail : Bytes) :
    LabelsAt (f ++ ls.flatMap wire_label ++ tail) f.length ls
      (f ++ ls.flatMap wire_label).length := by
  induction ls generalizing f with
  | nil =>
    rw [List.flatMap_nil, List.append_nil]
    exact .nil _
  | cons l ls ih =>
    obtain ⟨⟨hpos, hshort⟩, hls⟩ := List.forall_mem_cons.1 hls
    have hn : (UInt8.ofNat l.length).toNat = l.length := length_octet _ (by omega)
    have hne : UInt8.ofNat l.length ≠ 0 := fun h0 => by
      rw [h0, UInt8.toNat_zero] at hn
      omega
    -- the message regrouped so that this label's octets end a prefix
    have hgroup : f ++ (l :: ls).flatMap wire_label = (f ++ wire_label l) ++ ls.flatMap wire_label := by
      simp
    have hstop : f.length + 1 + (UInt8.ofNat l.length).toNat = (f ++ wire_label l).length := by
      rw [hn, List.length_append, wire_label, List.length_cons]
      omega
    have hslice : slice (f ++ (l :: ls).flatMap wire_label ++ tail) (f.length + 1)
        (f.length + 1 + (UInt8.ofNat l.length).toNat) = l := by
      have hsplit : f ++ (l :: ls).flatMap wire_label ++ tail
          = (f ++ [UInt8.ofNat l.length]) ++ (l ++ (ls.flatMap wire_label ++ tail)) := by
        simp [wire_label]
      rw [hsplit, hn, Packet.slice_append_right _ (by simp), List.take_left]
    have hrest := ih hls (f ++ wire_label l)
    rw [← hgroup, ← hstop] at hrest
    have hrun := LabelsAt.cons (s := f ++ (l :: ls).flatMap wire_label ++ tail) (p := f.length)
      (by simp [wire_label]) hne (short_label _ (by omega)) (by rw [hgroup, hstop]; simp) hrest
    rwa [hslice] at hrun

/-- `dns_get_str` of an uncompressed name is its labels in presentation form. -/
theorem dns_get_str_wire (n : Name) (full : Bytes) :
    dns_get_str n.wire full = .ok (if n.labels = [] then [DOT] else present n.labels, []) := by
  have hrun := labelsAt_wire n.bounds [] [0]
  rw [List.nil_append] at hrun
  have hroot : n.wire[(n.labels.flatMap wire_label).length]? = some 0 := by
    simp [Name.wire, wire_name]
  have hname : present n.labels = [] ↔ n.labels = [] := by
    cases n.labels <;> simp [present_cons]
  have hwalk := get_str_loop_labels hrun full [] none [] none
  rw [List.length_nil, List.nil_append] at hwalk
  rw [dns_get_str, Name.wire, wire_name, hwalk, get_str_loop_root hroot]
  simp [hname]

/-! ## Writing it again -/

theorem wire_label_take {l : Bytes} (h : l.length ≤ 63) : wire_label (l.take 63) = wire_label l := by
  rw [List.take_of_length_le h]

/-- A name in presentation form that is not taken for an encoded one is written as its labels. -/
theorem i2m_present {ls : List Bytes} (hls : ∀ l ∈ ls, l.length ≤ 63) (hne : present ls ≠ [])
    (hdot : present ls ≠ [DOT]) (hptr : is_ptr (present ls) = false) :
    i2m (present ls) = wire_name ls := by
  have hlabels : (split_labels (present ls)).flatMap (fun k => wire_label (k.take 63))
      = wire_name ls := by
    rw [split_labels_present, List.flatMap_append, wire_name]
    congr 1
    exact List.flatMap_congr fun l hl => wire_label_take (hls l hl)
  have hlast : (wire_name ls).getLast? = some 0 := by
    rw [wire_name, List.getLast?_concat]
  unfold i2m dns_encode
  rw [if_neg (by simp [hne, hdot]), if_neg (by simp [hptr])]
  dsimp only
  rw [hlabels, if_pos hlast]

/-- One that is taken for an encoded name is written as it stands. -/
theorem i2m_ptr {x : Bytes} (hne : x ≠ []) (hdot : x ≠ [DOT]) (hptr : is_ptr x = true) : i2m x = x := by
  unfold i2m dns_encode
  rw [if_neg (by simp [hne, hdot]), if_pos (by simp [hptr])]

theorem h2i_of_dot {x : Bytes} (h : x.getLast? = some DOT) : h2i x = x := by
  unfold h2i
  rw [if_neg (by rintro rfl; cases h), if_neg fun hn => hn.1 h]

/-! ## Taken for an encoded name -/

theorem is_ptr_present (ls : List Bytes) {l : Bytes} (hl : l ≠ []) :
    is_ptr (present (ls ++ [l])) = l.getLast?.any fun o => o &&& 0xC0 == 0xC0 := by
  have hescape : escape l ≠ [] := fun h => hl (escape_eq_nil.1 h)
  have hlast : (present (ls ++ [l])).dropLast.getLast? = l.getLast? := by
    rw [present_concat, List.dropLast_concat, List.getLast?_append_of_ne_nil _ hescape,
      escape_getLast?]
  have hroot : ((present (ls ++ [l])).getLast? == some 0) = false := by
    rw [present_concat, List.getLast?_concat]
    decide
  rw [is_ptr, hroot, hlast, Bool.false_or]

/-- A name goes back to the octets it was read from exactly when the octet before the
presented form's trailing dot cannot be a compression pointer's first. -/
theorem name_rebuilt_iff (n : Name) : rebuilt n.wire = .ok n.wire ↔ n.EndsPlain := by
  obtain hnil | ⟨ls, l, hlabels⟩ := List.eq_nil_or_concat' n.labels
  · have hroot : rebuilt n.wire = .ok n.wire := by
      rw [rebuilt, dns_get_str_wire, if_pos hnil, Name.wire, hnil]
      rfl
    have hplain : n.EndsPlain := by
      intro o ho
      rw [hnil] at ho
      cases ho
    exact iff_of_true hroot hplain
  · have hl : l ≠ [] := fun h => by
      have hb := (n.bounds l (by simp [hlabels])).1
      rw [h, List.length_nil] at hb
      omega
    obtain ⟨hne, hdot, hlast⟩ := present_spelt ls hl
    have hread : rebuilt n.wire = .ok (i2m (present (ls ++ [l]))) := by
      rw [rebuilt, dns_get_str_wire, if_neg (by simp [hlabels]), hlabels]
      exact congrArg (fun x => Except.ok (i2m x)) (h2i_of_dot hlast)
    have hplain : n.EndsPlain ↔ is_ptr (present (ls ++ [l])) = false := by
      rw [is_ptr_present ls hl, Name.EndsPlain, hlabels, List.getLast?_concat]
      cases hend : l.getLast? <;> simp [hend]
    rw [hread, hplain]
    constructor
    · intro h
      by_contra hptr
      rw [Bool.not_eq_false] at hptr
      -- taken for encoded, the text is written as it is, and ends in a dot where the wire ends in 0
      rw [i2m_ptr hne hdot hptr, Except.ok.injEq] at h
      rw [h, Name.wire, wire_name, List.getLast?_concat] at hlast
      exact absurd hlast (by decide)
    · intro hptr
      rw [i2m_present (fun m hm => (n.bounds m (hlabels ▸ hm)).2) hne hdot hptr, Name.wire, hlabels]

/-- The name of one label, that label one octet. -/
def octet_name (o : UInt8) : Name where
  labels := [[o]]
  bounds := by simp
  octets := by simp [wire_name, wire_label]

/-- The label `C0` comes back as its presentation form, `C0 2E`. -/
theorem pointer_octet_not_rebuilt :
    rebuilt (octet_name 0xC0).wire ≠ .ok (octet_name 0xC0).wire := by
  rw [rebuilt, dns_get_str_wire]
  decide

end Wiry.Dns
