/-
Looking a layer up in a Python packet, `python/wiry/_pylayer.py`: `_matches`, `_subpackets`,
`haslayer` and `getlayer`.

A packet is a tree: under each layer the packets its fields hold, and behind those its payload.
`preorder` lists the tree the way both walk it; the count that is left goes through the walk in a
list of one element, which only `NoPayload` fills.
-/
import Mathlib.Data.Int.Notation
import Mathlib.Data.List.Basic
import Mathlib.Tactic.Common

set_option autoImplicit false

namespace Wiry.Pylayer

/-! ## Packets -/

/-- What the value of a packet field is. -/
inductive Value (α : Type) where
  | None
  /-- Neither a packet nor a list. -/
  | other
  | packet (p : α)
  /-- An element that is no packet is `none`. -/
  | list (elements : List (Option α))

/-- A field of `packetfields`, with what `getfieldval` gives of it. -/
structure PacketField (α : Type) where
  islist : Bool
  val : Value α

inductive PyPacket (C : Type) where
  | NoPayload
  | layer (type : C) (packetfields : List (PacketField (PyPacket C))) (payload : PyPacket C)

/-- What is asked of the classes of packets and of the classes a packet is looked up by. -/
structure Classes (C : Type) where
  /-- `__name__`. -/
  name : C → String
  _name : C → Option String
  /-- `issubclass`, also what `isinstance` asks. -/
  issubclass : C → C → Bool
  py_packet : C
  match_subclass : C → Bool

/-- What a layer is looked up by. -/
inductive Matcher (C : Type) where
  | None
  | int (i : ℤ)
  | str (s : String)
  | type (c : C)
  deriving DecidableEq

variable {C : Type}

/-- `_subpackets`. -/
def _subpackets (packetfields : List (PacketField (PyPacket C))) : List (PyPacket C) :=
  packetfields.flatMap fun f =>
    match f.val with
    | .None => []
    | .other => []
    | .packet p => [p]
    | .list elements => if f.islist then elements.filterMap id else []

/-- A packet in a field is smaller than the layer, so the searches end. -/
theorem sizeOf_subpacket {self : C} {packetfields : List (PacketField (PyPacket C))}
    {payload sub : PyPacket C} (h : sub ∈ _subpackets packetfields) :
    sizeOf sub < sizeOf (PyPacket.layer self packetfields payload) := by
  unfold _subpackets at h
  rw [List.mem_flatMap] at h
  obtain ⟨f, hf, hsub⟩ := h
  have hfield := List.sizeOf_lt_of_mem hf
  have hval : sizeOf sub < sizeOf f := by
    -- The packet is the field's value or an element of it.
    cases f with
    | mk islist val =>
      cases val with
      | None => cases hsub
      | other => cases hsub
      | packet p =>
        cases List.mem_singleton.1 hsub
        simp only [PacketField.mk.sizeOf_spec, Value.packet.sizeOf_spec]
        omega
      | list elements =>
        dsimp only at hsub
        split at hsub
        · rw [List.mem_filterMap] at hsub
          obtain ⟨e, he, hid⟩ := hsub
          have hele := List.sizeOf_lt_of_mem he
          simp only [id] at hid
          subst hid
          simp only [PacketField.mk.sizeOf_spec, Value.list.sizeOf_spec, Option.some.sizeOf_spec] at hele ⊢
          omega
        · cases hsub
  simp only [PyPacket.layer.sizeOf_spec]
  omega

/-- Induction along the walk. -/
theorem PyPacket.walk {motive : PyPacket C → Prop} (stop : motive .NoPayload)
    (layer : ∀ self packetfields payload, (∀ sub ∈ _subpackets packetfields, motive sub) →
      motive payload → motive (.layer self packetfields payload)) (p : PyPacket C) : motive p := by
  induction hn : sizeOf p using Nat.strongRecOn generalizing p with
  | _ n ih =>
    subst hn
    match p with
    | .NoPayload => exact stop
    | .layer self packetfields payload =>
      refine layer self packetfields payload ?_ ?_
      · intro sub hsub
        exact ih _ (sizeOf_subpacket hsub) sub rfl
      · refine ih _ ?_ payload rfl
        simp only [PyPacket.layer.sizeOf_spec]
        omega

/-! ## The order of the walk -/

section
variable (cs : Classes C)

/-- `if _subclass is None: _subclass = self.match_subclass or None`. -/
def subclass_mode (self : C) : Option Bool → Option Bool
  | some mode => some mode
  | none => if cs.match_subclass self then some true else none

/-- The packets of a tree in order, each with the subclass mode it is asked in: a packet, the packets
of its fields with what is under them, then its payload. -/
def preorder : PyPacket C → Option Bool → List (PyPacket C × Option Bool)
  | .NoPayload, _ => []
  | .layer self packetfields payload, _subclass =>
    let _subclass := subclass_mode cs self _subclass
    (.layer self packetfields payload, _subclass) ::
      ((_subpackets packetfields).attach.flatMap (fun sub => preorder sub.1 _subclass) ++
        preorder payload _subclass)
termination_by p => sizeOf p
decreasing_by
  · exact sizeOf_subpacket sub.2
  · simp only [PyPacket.layer.sizeOf_spec]
    omega

theorem preorder_layer (self : C) (packetfields : List (PacketField (PyPacket C)))
    (payload : PyPacket C) (mode : Option Bool) :
    preorder cs (.layer self packetfields payload) mode =
      (.layer self packetfields payload, subclass_mode cs self mode) ::
        ((_subpackets packetfields).flatMap (fun sub => preorder cs sub (subclass_mode cs self mode)) ++
          preorder cs payload (subclass_mode cs self mode)) := by
  rw [preorder]
  rw [List.flatMap_subtype (g := fun sub => preorder cs sub (subclass_mode cs self mode)) (fun _ _ => rfl),
    List.unattach_attach]

end

/-! ## The lookups -/

section
variable [DecidableEq C] (cs : Classes C)

/-- `_matches` of a layer of type `self`. -/
def _matches (self : C) (cls : Matcher C) (subclass : Option Bool) : Bool :=
  match cls with
  | .None => true
  | .str s => s = cs.name self ∨ some s = cs._name self
  | .int _ => false
  | .type c =>
    if subclass = some true then cs.issubclass self c
    else if self = c then true
    else ¬ cs.issubclass c cs.py_packet ∧ cs._name c = cs._name self ∧ cs._name self ≠ none

/-- `haslayer`. -/
def haslayer (cls : Matcher C) : PyPacket C → Option Bool → Bool
  | .NoPayload, _ => false
  | .layer self packetfields payload, _subclass =>
    let _subclass := subclass_mode cs self _subclass
    _matches cs self cls _subclass ||
      (_subpackets packetfields).attach.any (fun sub => haslayer cls sub.1 _subclass) ||
      haslayer cls payload _subclass
termination_by p => sizeOf p
decreasing_by
  · exact sizeOf_subpacket sub.2
  · simp only [PyPacket.layer.sizeOf_spec]
    omega

/-- What `getlayer` returns: a layer, or a field of the layer it was asked of. -/
inductive Found (C : Type) where
  | layer (p : PyPacket C)
  | getfieldval (p : PyPacket C) (fld : String)

/-- `cls.split(".", 1)`, where there is a dot. -/
def split_fld : Matcher C → Matcher C × Option String
  | .str s =>
    if '.' ∈ s.toList then
      (.str (String.ofList (s.toList.takeWhile (· ≠ '.'))),
        some (String.ofList ((s.toList.dropWhile (· ≠ '.')).drop 1)))
    else (.str s, none)
  | cls => (cls, none)

/-- `cls or None`. -/
def or_none : Matcher C → Matcher C
  | .str s => if s = "" then .None else .str s
  | cls => cls

/-- The loop over the packets of the fields: what one of them returns, or the count that is left. A
count that was not filled in is an `IndexError`. -/
def try_each {α β : Type} (step : α → ℤ → Option (Option β × Option (List ℤ))) :
    List α → ℤ → Option (β ⊕ ℤ)
  | [], nb => some (.inr nb)
  | sub :: subs, nb =>
    match step sub nb with
    | some (some ret, _) => some (.inl ret)
    | some (none, some (nb :: _)) => try_each step subs nb
    | _ => none

/-- `getlayer`: what it returns, and the list it was given to fill. -/
def getlayer : PyPacket C → Matcher C → ℤ → Option (List ℤ) → Option Bool →
    Option (Option (Found C) × Option (List ℤ))
  | .NoPayload, _, nb, _track, _ => some (none, _track.map (· ++ [nb]))
  | .layer self packetfields payload, cls, nb, _track, _subclass =>
    let _subclass := subclass_mode cs self _subclass
    let (nb, cls) := match cls with
      | .int i => (i + 1, Matcher.None)
      | cls => (nb, cls)
    let (cls, fld) := split_fld cls
    let here := _matches cs self (or_none cls) _subclass
    if here ∧ nb = 1 then
      let self := PyPacket.layer self packetfields payload
      some (some (match fld with
        | some fld => .getfieldval self fld
        | none => .layer self), _track)
    else
      match try_each (fun (sub : {sub // sub ∈ _subpackets packetfields}) nb => getlayer sub.1 cls nb (some []) _subclass)
          (_subpackets packetfields).attach (if here then nb - 1 else nb) with
      | some (.inl ret) => some (some ret, _track)
      | some (.inr nb) => getlayer payload cls nb _track _subclass
      | none => none
termination_by p => sizeOf p
decreasing_by
  · exact sizeOf_subpacket sub.2
  · simp only [PyPacket.layer.sizeOf_spec]
    omega

end

/-! ## Matchers with no field behind them -/

/-- What the recursion asks for: neither a number nor a name with a field behind a dot. -/
def Settled (cls : Matcher C) : Prop := (∀ i, cls ≠ .int i) ∧ split_fld cls = (cls, none)

/-- A class, any layer, or a name that is not empty and has no dot. -/
def Plain : Matcher C → Prop
  | .int _ => False
  | .str s => s ≠ "" ∧ '.' ∉ s.toList
  | _ => True

theorem Plain.settled {cls : Matcher C} (h : Plain cls) : Settled cls := by
  match cls, h with
  | .None, _ => exact ⟨nofun, rfl⟩
  | .type _, _ => exact ⟨nofun, rfl⟩
  | .str s, ⟨_, hdot⟩ =>
    refine ⟨nofun, ?_⟩
    unfold split_fld
    dsimp only
    rw [if_neg hdot]

theorem Plain.or_none {cls : Matcher C} (h : Plain cls) : or_none cls = cls := by
  match cls, h with
  | .None, _ => rfl
  | .type _, _ => rfl
  | .str s, ⟨hempty, _⟩ => exact if_neg hempty

/-! ## Counting -/

/-- The one of a list that a count asks for; where there are fewer, what is left of the count. -/
def pick (L : List (PyPacket C)) (nb : ℤ) (_track : Option (List ℤ)) :
    Option (Option (Found C) × Option (List ℤ)) :=
  match L[(nb - 1).toNat]? with
  | some p => some (some (.layer p), _track)
  | none => some (none, _track.map (· ++ [nb - L.length]))

theorem pick_of_some {L : List (PyPacket C)} {nb : ℤ} {p : PyPacket C} (h : L[(nb - 1).toNat]? = some p)
    (_track : Option (List ℤ)) : pick L nb _track = some (some (.layer p), _track) := by
  unfold pick
  rw [h]

theorem pick_of_none {L : List (PyPacket C)} {nb : ℤ} (h : L[(nb - 1).toNat]? = none)
    (_track : Option (List ℤ)) :
    pick L nb _track = some (none, _track.map (· ++ [nb - L.length])) := by
  unfold pick
  rw [h]

/-- The front of a list answers, or passes on what it leaves of the count. -/
theorem getElem?_front {α : Type} {A : List α} {nb : ℤ} {a : α} (h : A[(nb - 1).toNat]? = some a)
    (B : List α) : (A ++ B)[(nb - 1).toNat]? = some a := by
  have hlt := (List.getElem?_eq_some_iff.1 h).1
  rw [List.getElem?_append_left hlt, h]

/-- The place behind a first list. -/
theorem getElem?_behind {α : Type} {A : List α} {nb : ℤ} (h : A[(nb - 1).toNat]? = none)
    (B : List α) : (A ++ B)[(nb - 1).toNat]? = B[(nb - A.length - 1).toNat]? := by
  have hle := List.getElem?_eq_none_iff.1 h
  rw [List.getElem?_append_right hle]
  congr 1
  omega

theorem pick_behind {A : List (PyPacket C)} {nb : ℤ} (h : A[(nb - 1).toNat]? = none)
    (B : List (PyPacket C)) (_track : Option (List ℤ)) :
    pick (A ++ B) nb _track = pick B (nb - A.length) _track := by
  unfold pick
  rw [getElem?_behind h, List.length_append]
  have hleft : nb - ((A.length + B.length : ℕ) : ℤ) = nb - A.length - B.length := by omega
  rw [hleft]

/-- The search over mapped packets. -/
theorem try_each_map {α β γ : Type} (step : β → ℤ → Option (Option γ × Option (List ℤ))) (f : α → β)
    (subs : List α) (nb : ℤ) :
    try_each (fun sub nb => step (f sub) nb) subs nb = try_each step (subs.map f) nb := by
  induction subs generalizing nb with
  | nil => rfl
  | cons sub subs ih =>
    rw [List.map_cons, try_each, try_each]
    simp only [ih]

theorem try_each_attach {α β : Type} (step : α → ℤ → Option (Option β × Option (List ℤ)))
    (subs : List α) (nb : ℤ) :
    try_each (fun (sub : {sub // sub ∈ subs}) nb => step sub.1 nb) subs.attach nb = try_each step subs nb := by
  have hmap := try_each_map step (fun sub : {sub // sub ∈ subs} => sub.1) subs.attach nb
  rw [hmap, List.attach_map_subtype_val]

/-- The loop over the packets of the fields picks from what they find one behind the other. -/
theorem try_each_pick {α : Type} {step : α → ℤ → Option (Option (Found C) × Option (List ℤ))}
    {find : α → List (PyPacket C)} {subs : List α}
    (h : ∀ sub ∈ subs, ∀ nb, 1 ≤ nb → step sub nb = pick (find sub) nb (some [])) {nb : ℤ} (hnb : 1 ≤ nb) :
    try_each step subs nb = match (subs.flatMap find)[(nb - 1).toNat]? with
      | some p => some (.inl (.layer p))
      | none => some (.inr (nb - (subs.flatMap find).length)) := by
  induction subs generalizing nb with
  | nil =>
    rw [try_each, List.flatMap_nil, List.getElem?_nil, List.length_nil]
    dsimp only
    rw [Int.natCast_zero, Int.sub_zero]
  | cons sub subs ih =>
    rw [try_each, h sub List.mem_cons_self nb hnb, List.flatMap_cons]
    cases hfind : (find sub)[(nb - 1).toNat]? with
    | some p =>
      rw [pick_of_some hfind, getElem?_front hfind]
    | none =>
      -- what is left of the count is passed on, and is still at least one
      have hle := List.getElem?_eq_none_iff.1 hfind
      have hleft : nb - ((find sub ++ subs.flatMap find).length : ℤ) =
          nb - (find sub).length - (subs.flatMap find).length := by
        rw [List.length_append]
        omega
      rw [pick_of_none hfind, getElem?_behind hfind, hleft]
      exact ih (fun other hmem => h other (List.mem_cons_of_mem _ hmem)) (by omega)

/-! ## What the lookups find -/

section
variable [DecidableEq C] (cs : Classes C)

/-- `_matches` of a packet. -/
def PyPacket.answers (cls : Matcher C) : PyPacket C × Option Bool → Bool
  | (.NoPayload, _) => false
  | (.layer self _ _, _subclass) => _matches cs self cls _subclass

/-- The packets of a tree that match. -/
def hits (cls : Matcher C) (p : PyPacket C) (_subclass : Option Bool) : List (PyPacket C) :=
  ((preorder cs p _subclass).filter (PyPacket.answers cs cls)).map Prod.fst

/-- The matches of a layer in preorder: itself, its fields' packets, its payload's. -/
theorem hits_layer (cls : Matcher C) (self : C) (packetfields : List (PacketField (PyPacket C)))
    (payload : PyPacket C) (mode : Option Bool) :
    hits cs cls (.layer self packetfields payload) mode =
      (if _matches cs self cls (subclass_mode cs self mode) then
          [.layer self packetfields payload] else []) ++
        ((_subpackets packetfields).flatMap (fun sub => hits cs cls sub (subclass_mode cs self mode)) ++
          hits cs cls payload (subclass_mode cs self mode)) := by
  unfold hits
  rw [preorder_layer, List.filter_cons, List.filter_append, List.filter_flatMap]
  have hself : PyPacket.answers cs cls (.layer self packetfields payload, subclass_mode cs self mode) =
      _matches cs self cls (subclass_mode cs self mode) := rfl
  rw [hself]
  split
  · rw [List.map_cons, List.map_append, List.map_flatMap]
    rfl
  · rw [List.map_append, List.map_flatMap]
    rfl

theorem haslayer_layer (cls : Matcher C) (self : C) (packetfields : List (PacketField (PyPacket C)))
    (payload : PyPacket C) (mode : Option Bool) :
    haslayer cs cls (.layer self packetfields payload) mode =
      (_matches cs self cls (subclass_mode cs self mode) ||
        (_subpackets packetfields).any (fun sub => haslayer cs cls sub (subclass_mode cs self mode)) ||
        haslayer cs cls payload (subclass_mode cs self mode)) := by
  rw [haslayer]
  rw [List.any_subtype (g := fun sub => haslayer cs cls sub (subclass_mode cs self mode)) (fun _ _ => rfl),
    List.unattach_attach]

/-- `haslayer` is whether anything in the tree matches. -/
theorem haslayer_iff (cls : Matcher C) (p : PyPacket C) (mode : Option Bool) :
    haslayer cs cls p mode = true ↔ hits cs cls p mode ≠ [] := by
  induction p using PyPacket.walk generalizing mode with
  | stop =>
    rw [haslayer, hits, preorder]
    exact ⟨fun h => absurd h Bool.false_ne_true, fun h => absurd rfl h⟩
  | layer self packetfields payload hsubs hpayload =>
    -- some subpacket has the layer just where its own hits are not empty
    have hfields : ((_subpackets packetfields).any fun sub => haslayer cs cls sub (subclass_mode cs self mode)) =
        true ↔ (_subpackets packetfields).flatMap (fun sub => hits cs cls sub (subclass_mode cs self mode)) ≠ [] := by
      rw [List.any_eq_true, ne_eq, List.flatMap_eq_nil_iff, not_forall]
      constructor
      · rintro ⟨sub, hsub, hhas⟩
        exact ⟨sub, fun h => (hsubs sub hsub _).1 hhas (h hsub)⟩
      · rintro ⟨sub, hsub⟩
        rw [Classical.not_imp] at hsub
        exact ⟨sub, hsub.1, (hsubs sub hsub.1 _).2 hsub.2⟩
    rw [haslayer_layer, hits_layer, Bool.or_eq_true, Bool.or_eq_true, hfields, hpayload]
    simp only [ne_eq, List.append_eq_nil_iff]
    by_cases hself : _matches cs self cls (subclass_mode cs self mode) = true
    · rw [if_pos hself]
      simp [hself]
    · rw [if_neg hself]
      simp only [hself, Bool.false_eq_true, false_or, true_and]
      tauto

/-- One step of the search, with every branch of the source written out once. -/
theorem getlayer_layer {cls : Matcher C} (hcls : Settled cls) (self : C)
    (packetfields : List (PacketField (PyPacket C))) (payload : PyPacket C) (nb : ℤ)
    (_track : Option (List ℤ)) (mode : Option Bool) :
    getlayer cs (.layer self packetfields payload) cls nb _track mode =
      if _matches cs self (or_none cls) (subclass_mode cs self mode) ∧ nb = 1 then
        some (some (.layer (.layer self packetfields payload)), _track)
      else
        match try_each (fun sub nb => getlayer cs sub cls nb (some []) (subclass_mode cs self mode))
            (_subpackets packetfields)
            (if _matches cs self (or_none cls) (subclass_mode cs self mode) then nb - 1 else nb) with
        | some (.inl ret) => some (some ret, _track)
        | some (.inr nb) => getlayer cs payload cls nb _track (subclass_mode cs self mode)
        | none => none := by
  obtain ⟨hint, hsplit⟩ := hcls
  rw [getlayer, hsplit]
  · dsimp only
    rw [try_each_attach fun sub nb => getlayer cs sub cls nb (some []) (subclass_mode cs self mode)]
  · exact hint

/-- **`getlayer` picks from the matches in order**, and leaves in the list it was given what is left of
the count where they are too few. -/
theorem getlayer_pick {cls : Matcher C} (hcls : Settled cls) (p : PyPacket C) {nb : ℤ} (hnb : 1 ≤ nb)
    (_track : Option (List ℤ)) (mode : Option Bool) :
    getlayer cs p cls nb _track mode = pick (hits cs (or_none cls) p mode) nb _track := by
  induction p using PyPacket.walk generalizing nb _track mode with
  | stop =>
    rw [getlayer, hits, preorder, pick_of_none rfl]
    simp
  | layer self packetfields payload hsubs hpayload =>
    -- the packets of the fields, and behind them the payload, whichever count is asked for
    have hloop : ∀ nb, 1 ≤ nb →
        (match try_each (fun sub nb => getlayer cs sub cls nb (some []) (subclass_mode cs self mode))
            (_subpackets packetfields) nb with
          | some (.inl ret) => some (some ret, _track)
          | some (.inr nb) => getlayer cs payload cls nb _track (subclass_mode cs self mode)
          | none => none) =
        pick ((_subpackets packetfields).flatMap
            (fun sub => hits cs (or_none cls) sub (subclass_mode cs self mode)) ++
          hits cs (or_none cls) payload (subclass_mode cs self mode)) nb _track := by
      intro nb hnb
      rw [try_each_pick (fun sub hsub nb hnb => hsubs sub hsub hnb _ _) hnb]
      cases hfind : ((_subpackets packetfields).flatMap
          (fun sub => hits cs (or_none cls) sub (subclass_mode cs self mode)))[(nb - 1).toNat]? with
      | some q => rw [pick_of_some (getElem?_front hfind _)]
      | none =>
        have hle := List.getElem?_eq_none_iff.1 hfind
        rw [pick_behind hfind]
        exact hpayload (by omega) _ _
    rw [getlayer_layer cs hcls, hits_layer]
    by_cases hself : _matches cs self (or_none cls) (subclass_mode cs self mode) = true
    · rw [if_pos hself, if_pos hself]
      by_cases hone : nb = 1
      · subst hone
        rw [if_pos ⟨hself, rfl⟩]
        rfl
      · -- the layer itself is one of those counted
        have hmore : 1 ≤ nb - 1 := by omega
        have hfirst : ([PyPacket.layer self packetfields payload])[(nb - 1).toNat]? = none :=
          List.getElem?_eq_none_iff.2 (by rw [List.length_singleton]; omega)
        rw [if_neg fun h => hone h.2, hloop _ hmore, pick_behind hfirst]
        rfl
    · rw [if_neg fun h => hself h.1, if_neg hself, if_neg hself, hloop nb hnb, List.nil_append]

/-- **Looking up counts in preorder.** For a class, or a name that is not empty and has no dot, the
layer found is the one of the matches the count asks for, and `haslayer` is whether there is any. -/
theorem getlayer_preorder {cls : Matcher C} (hcls : Plain cls) (p : PyPacket C) {nb : ℤ} (hnb : 1 ≤ nb)
    (mode : Option Bool) :
    getlayer cs p cls nb none mode =
        some ((hits cs cls p mode)[(nb - 1).toNat]?.map Found.layer, none) ∧
      (haslayer cs cls p mode = true ↔ hits cs cls p mode ≠ []) := by
  refine ⟨?_, haslayer_iff cs cls p mode⟩
  rw [getlayer_pick cs hcls.settled p hnb, hcls.or_none]
  unfold pick
  cases (hits cs cls p mode)[(nb - 1).toNat]? with
  | some q => rfl
  | none => rfl

end

/-- Classes of packets told apart by a flag. -/
def flagged : Classes Bool where
  name flag := if flag then "Option" else "Header"
  _name _ := none
  issubclass sub cls := sub = cls
  py_packet := false
  match_subclass _ := false

/-- A header whose list field holds an option with an option behind it and whose other field holds
one more, with an option for its payload: the third is the one of the second field. -/
theorem getlayer_third :
    getlayer flagged (.layer false
        [⟨true, .list [some (.layer true [] (.layer true [] .NoPayload)), none]⟩,
          ⟨false, .packet (.layer true [⟨false, .other⟩] .NoPayload)⟩]
        (.layer true [] .NoPayload)) (.str "Option") 3 none none =
      some (some (.layer (.layer true [⟨false, .other⟩] .NoPayload)), none) := by
  have hplain : Plain (.str "Option" : Matcher Bool) := ⟨by decide, by decide⟩
  have hnone : hits flagged (.str "Option") .NoPayload none = [] := by
    rw [hits, preorder]
    rfl
  have hheader : _matches flagged false (.str "Option") none = false := by decide
  have hoption : _matches flagged true (.str "Option") none = true := by decide
  have hmode : ∀ flag, subclass_mode flagged flag none = none := fun flag => rfl
  have hsubs : _subpackets [⟨true, .list [some (.layer true [] (.layer true [] .NoPayload)), none]⟩,
        ⟨false, .packet (.layer true [⟨false, .other⟩] .NoPayload)⟩] =
      [PyPacket.layer true [] (.layer true [] .NoPayload), .layer true [⟨false, .other⟩] .NoPayload] := rfl
  have hother : _subpackets [⟨false, .other⟩] = ([] : List (PyPacket Bool)) := rfl
  have hempty : _subpackets [] = ([] : List (PyPacket Bool)) := rfl
  -- the third hit, in preorder, is the packet field behind the list
  refine (getlayer_preorder flagged hplain _ (by omega) none).1.trans ?_
  simp only [hits_layer, hmode, hheader, hoption, hnone, hsubs, hother, hempty, List.flatMap_cons,
    List.flatMap_nil]
  rfl

/-! ## Names that ask for something else -/

/-- A class of packets with a dot in its name. -/
def dotted : Classes Unit where
  name _ := "Dot1Q"
  _name _ := some "802.1Q"
  issubclass _ _ := true
  py_packet := ()
  match_subclass _ := false

/-- A name with a dot in it asks for a field of the layer before the dot, and an empty one for any
layer: `getlayer` misses a packet that has the name, and finds one that has another. -/
theorem getlayer_dotted :
    (hits dotted (.str "802.1Q") (.layer () [] .NoPayload) none = [.layer () [] .NoPayload] ∧
      haslayer dotted (.str "802.1Q") (.layer () [] .NoPayload) none = true ∧
      getlayer dotted (.layer () [] .NoPayload) (.str "802.1Q") 1 none none = some (none, none)) ∧
    (hits dotted (.str "") (.layer () [] .NoPayload) none = [] ∧
      haslayer dotted (.str "") (.layer () [] .NoPayload) none = false ∧
      getlayer dotted (.layer () [] .NoPayload) (.str "") 1 none none =
        some (some (.layer (.layer () [] .NoPayload)), none)) := by
  -- Nothing matches below the one layer; the names are compared as they are split.
  have hnone : ∀ cls : Matcher Unit, ∀ mode, hits dotted cls .NoPayload mode = [] := by
    intro cls mode
    rw [hits, preorder]
    rfl
  have hname : _matches dotted () (.str "802.1Q") none = true := by decide
  have hempty : _matches dotted () (.str "") none = false := by decide
  have hfront : split_fld (.str "802.1Q") = (Matcher.str (C := Unit) "802", some "1Q") := by decide
  have hwhole : split_fld (.str "") = (Matcher.str (C := Unit) "", none) := by decide
  have hother : _matches dotted () (or_none (.str "802")) none = false := by decide
  have hany : _matches dotted () (or_none (.str "")) none = true := by decide
  have hmode : subclass_mode dotted () none = none := rfl
  have hnamed := hits_layer dotted (.str "802.1Q") () [] .NoPayload none
  have hunnamed := hits_layer dotted (.str "") () [] .NoPayload none
  rw [hmode, hname, hnone] at hnamed
  rw [hmode, hempty, hnone] at hunnamed
  refine ⟨⟨hnamed, ?_, ?_⟩, hunnamed, ?_, ?_⟩
  · rw [haslayer_iff, hnamed]
    exact List.cons_ne_nil _ _
  · rw [getlayer, hfront]
    · dsimp only
      have hloop : try_each (fun sub nb => getlayer dotted sub (.str "802") nb (some []) none)
          (_subpackets []) 1 = some (.inr 1) := rfl
      have hend : getlayer dotted .NoPayload (.str "802") 1 none none = some (none, none) := by
        rw [getlayer]
        rfl
      rw [hmode, hother, if_neg (by decide), if_neg Bool.false_ne_true,
        try_each_attach fun sub nb => getlayer dotted sub (.str "802") nb (some []) none, hloop]
      exact hend
    · exact nofun
  · rw [Bool.eq_false_iff, ne_eq, haslayer_iff, hunnamed]
    exact fun h => h rfl
  · rw [getlayer, hwhole]
    · dsimp only
      rw [hmode, hany, if_pos (by decide)]
    · exact nofun

end Wiry.Pylayer
