/-
Iterating a Python packet, `python/wiry/_pylayer.py`: `SetGen`, `PyPacket.__iter__` and `clone_with`.

A packet stands for one packet per element of each of its generator fields. The loop over the names
still to do writes into one dictionary all its branches share, and lists a name once for each place
it finds it in. A list, a range, a packet and a `Net` can be walked again in every branch; a Python
generator object cannot: what one branch has taken from it no other branch finds. So the walk passes
along what is left of every generator object (`Gens`), beside the packets and the dictionary.

What the walk touches of the generator objects is said once, in `Local`: it takes from those that the
values it walks name, and from no others, and what it does depends on these alone. `Product` reads
from it where the expansion is the product.
-/
import Mathlib.Data.Int.Notation
import Mathlib.Data.List.Infix
import Mathlib.Logic.Function.Basic
import Mathlib.Tactic.Common

set_option autoImplicit false

namespace Wiry.Pylayer

/-! ## Field values -/

/-- The value of a field. -/
inductive FieldValue (V : Type) where
  | plain (v : V)
  | int (i : ℤ)
  | volatile (v : V)
  /-- Two whole numbers or three, the third not zero. -/
  | tuple (start stop : ℤ) (step : Option {k : ℤ // k ≠ 0})
  | range (start stop step : ℤ)
  /-- A packet, a `Net` or a `SetGen`, as what iterating it gives. A generator object stands among the
  elements of a `SetGen` for what it gives. -/
  | gen (elements : List (FieldValue V))
  /-- A generator object, which gives what is left of it. -/
  | generator (id : ℕ)
  | list (elements : List (FieldValue V))

variable {V : Type}

/-- Python's `range`. -/
def pyrange (start stop step : ℤ) : List ℤ :=
  let count := if 0 < step then (stop - start + step - 1) / step else (start - stop - step - 1) / -step
  (List.range count.toNat).map fun k => start + k * step

def _is_gen : FieldValue V → Bool
  | .gen _ => true
  | _ => false

def _get_values : FieldValue V → FieldValue V
  | .tuple start stop step => .range start (stop + 1) ((step.map Subtype.val).getD 1)
  | value => value

/-- `SetGen.__init__`. -/
def SetGen.values : FieldValue V → List (FieldValue V)
  | .list values => values.map _get_values
  | values => [_get_values values]

/-- `SetGen.__iter__`, up to the generator objects: what they give is taken from them as they are
walked. -/
def SetGen.iter (values : List (FieldValue V)) : List (FieldValue V) :=
  values.flatMap fun i =>
    match i with
    | .gen elements => elements
    | .range start stop step => (pyrange start stop step).map .int
    | i => [i]

/-- What the loop takes a field's value for. -/
def entries (islist : Bool) : FieldValue V → List (FieldValue V)
  | .gen elements => elements
  | elt => SetGen.iter (SetGen.values (if islist then .list [elt] else elt))

/-! ## Packets -/

/-- A dictionary, in the order of its keys. -/
structure Dict (V : Type) where
  items : List (String × FieldValue V)
  nodup : (items.map Prod.fst).Nodup

def Dict.get (d : Dict V) (k : String) : Option (FieldValue V) := d.items.lookup k

/-- The names of a dictionary whose values are volatile. -/
def Dict.volatile (d : Dict V) : List String :=
  (d.items.filter fun item => match item.2 with
    | .volatile _ => true
    | _ => false).map Prod.fst

variable {C : Type}

/-- A packet without its payload. -/
structure Layer (C V : Type) where
  type : C
  explicit : Bool
  /-- Whether `raw_packet_cache` is set. -/
  cached : Bool
  fields : Dict V
  overloaded_fields : Dict V
  default_fields : Dict V
  islist : String → Bool

inductive Chain (C V : Type) where
  | NoPayload
  | packet (self : Layer C V) (payload : Chain C V)

/-- What `clone_with` builds, an explicit packet. -/
inductive Clone (C V : Type) where
  | pkt (type : C) (fields : String → Option (FieldValue V)) (overloaded_fields default_fields : Dict V)
      (payload : Option (Clone C V))

/-- `getfieldval` of a field of the packet's own. -/
def Layer.getfieldval (self : Layer C V) (attr : String) : Option (FieldValue V) :=
  self.fields.get attr <|> self.overloaded_fields.get attr <|> self.default_fields.get attr

def Clone.getfieldval (attr : String) : Clone C V → Option (FieldValue V)
  | .pkt _ fields overloaded_fields default_fields _ =>
    fields attr <|> overloaded_fields.get attr <|> default_fields.get attr

def Clone.type : Clone C V → C
  | .pkt type _ _ _ _ => type

/-! ## Generator objects -/

/-- What is left of each generator object. -/
abbrev Gens (V : Type) := ℕ → List (FieldValue V)

/-- `next`: a generator object gives its elements until nothing is left of it. -/
def next : List (FieldValue V) → Gens V → Option (FieldValue V × List (FieldValue V) × Gens V)
  | [], _ => none
  | .generator id :: entries, gens =>
    match gens id with
    | [] => next entries gens
    | e :: rest => some (e, .generator id :: entries, Function.update gens id rest)
  | e :: entries, gens => some (e, entries, gens)

/-- What is left of one entry. -/
def left (gens : Gens V) : FieldValue V → List (FieldValue V)
  | .generator id => gens id
  | e => [e]

@[simp]
theorem left_generator (gens : Gens V) (id : ℕ) : left gens (.generator id) = gens id := rfl

/-- What walking the entries gives where nothing else takes from their generator objects. -/
def remaining (gens : Gens V) (entries : List (FieldValue V)) : List (FieldValue V) :=
  entries.flatMap (left gens)

/-! ## Iterating -/

/-- A walk so far: the packets, and the dictionary its branches share. -/
structure Walk (C V : Type) where
  pkts : List (Clone C V)
  done : String → Option (FieldValue V)

/-- `for e in elt`. The number bounds the turns: what is left only gets less. -/
def each (body : FieldValue V → Walk C V → Gens V → Walk C V × Gens V) :
    ℕ → List (FieldValue V) → Walk C V → Gens V → Walk C V × Gens V
  | 0, _, w, gens => (w, gens)
  | n + 1, entries, w, gens =>
    match next entries gens with
    | none => (w, gens)
    | some (e, rest, taken) =>
      let (w, gens) := body e w taken
      each body n rest w gens

section

/- What a class of payloads overloads in a class of packets, its bases included, and what a volatile
value is drawn as. -/
variable (overloads : C → C → Option (Dict V)) (_fix : V → FieldValue V)

/-- What `add_payload` leaves of the overloaded fields, those the payload overloads its own. -/
def overloaded_with (self : Layer C V) : Option (Clone C V) → Dict V
  | some payload => (overloads payload.type self.type).getD self.overloaded_fields
  | none => self.overloaded_fields

/-- `clone_with`. -/
def clone_with (self : Layer C V) (payload : Option (Clone C V)) (kargs : String → Option (FieldValue V)) :
    Clone C V :=
  .pkt self.type kargs (overloaded_with overloads self payload) self.default_fields payload

/-- `fixed`: what is done, with the volatile values drawn. -/
def fixed (done : String → Option (FieldValue V)) (k : String) : Option (FieldValue V) :=
  (done k).map fun v => match v with
    | .volatile v => _fix v
    | v => v

/-- What the field of a name is walked as. -/
def Layer.entries (self : Layer C V) (eltname : String) : List (FieldValue V) :=
  match self.getfieldval eltname with
  | some elt => Pylayer.entries (self.islist eltname) elt
  | none => []

/-- The names `__iter__` starts from. -/
def Layer.todo (self : Layer C V) : List String :=
  self.default_fields.volatile ++ self.overloaded_fields.volatile ++ self.fields.items.map Prod.fst

/-- `loop`, the names in the order they are popped. -/
def loop (self : Layer C V) (yields : Walk C V → Gens V → Walk C V × Gens V) :
    List String → Walk C V → Gens V → Walk C V × Gens V
  | [], w, gens => yields w gens
  | eltname :: todo, w, gens =>
    each (fun e w gens => loop self yields todo ⟨w.pkts, Function.update w.done eltname (some e)⟩ gens)
      (remaining gens (self.entries eltname)).length (self.entries eltname) w gens

/-- The packets of one dictionary, one for each of the payloads. -/
def made (self : Layer C V) (payloads : List (Option (Clone C V))) (done : String → Option (FieldValue V)) :
    List (Clone C V) :=
  payloads.map fun payl => clone_with overloads self payl (fixed _fix done)

/-- What is yielded once nothing is left to do: the payload is walked anew. -/
def leaf (self : Layer C V) (payloads : Gens V → List (Option (Clone C V)) × Gens V) (w : Walk C V)
    (gens : Gens V) : Walk C V × Gens V :=
  let (payls, gens) := payloads gens
  ({ w with pkts := w.pkts ++ made overloads _fix self payls w.done }, gens)

/-- `__iter__`, walked to its end: the packets, and what is left of the generator objects. -/
def iter : Chain C V → Gens V → List (Clone C V) × Gens V
  | .NoPayload, gens => ([], gens)
  | .packet self payload, gens =>
    let payloads := match payload with
      | .NoPayload => fun gens => ([none], gens)
      | payload => fun gens => ((iter payload gens).1.map some, (iter payload gens).2)
    let (w, gens) :=
      if self.explicit ∨ self.cached then
        loop self (leaf overloads _fix self payloads) [] ⟨[], self.fields.get⟩ gens
      else loop self (leaf overloads _fix self payloads) self.todo.reverse ⟨[], fun _ => none⟩ gens
    (w.pkts, gens)

/-- What the payload is iterated to. -/
def payloads : Chain C V → Gens V → List (Option (Clone C V)) × Gens V
  | .NoPayload, gens => ([none], gens)
  | payload, gens => ((iter overloads _fix payload gens).1.map some, (iter overloads _fix payload gens).2)

theorem iter_packet (self : Layer C V) (payload : Chain C V) (gens : Gens V) :
    iter overloads _fix (.packet self payload) gens =
      let out := if self.explicit ∨ self.cached then
          leaf overloads _fix self (payloads overloads _fix payload) ⟨[], self.fields.get⟩ gens
        else loop self (leaf overloads _fix self (payloads overloads _fix payload)) self.todo.reverse
          ⟨[], fun _ => none⟩ gens
      (out.1.pkts, out.2) := by
  cases payload with
  | NoPayload => rfl
  | packet other payload => rfl

end

/-! ## What a walk touches -/

/-- Nothing has been given back to a generator object. -/
def Shrunk (after before : Gens V) : Prop := ∀ id, after id <:+ before id

theorem Shrunk.refl (gens : Gens V) : Shrunk gens gens := fun id => List.suffix_refl (gens id)

theorem Shrunk.trans {first second third : Gens V} (h : Shrunk third second) (h' : Shrunk second first) :
    Shrunk third first := fun id => (h id).trans (h' id)

theorem Shrunk.eq_nil {after before : Gens V} (h : Shrunk after before) {id : ℕ} (hnil : before id = []) :
    after id = [] := by
  have hsuffix := h id
  rw [hnil] at hsuffix
  exact List.suffix_nil.1 hsuffix

theorem Shrunk.take {gens : Gens V} {id : ℕ} {e : FieldValue V} {rest : List (FieldValue V)}
    (h : gens id = e :: rest) : Shrunk (Function.update gens id rest) gens := by
  intro other
  by_cases hid : other = id
  · rw [hid, Function.update_self, h]
    exact List.suffix_cons _ _
  · rw [Function.update_of_ne hid]

/-- What takes from the generator objects of a set and from no others, and depends on these alone. -/
structure Local {A : Type} (touched : ℕ → Prop) (f : Gens V → A × Gens V) : Prop where
  shrinks : ∀ gens, Shrunk (f gens).2 gens
  outside : ∀ gens id, ¬ touched id → (f gens).2 id = gens id
  congr : ∀ gens other, (∀ id, touched id → gens id = other id) →
    (f gens).1 = (f other).1 ∧ ∀ id, touched id → (f gens).2 id = (f other).2 id

/-- Where none of them has anything left, nothing changes. -/
theorem Local.unchanged {A : Type} {touched : ℕ → Prop} {f : Gens V → A × Gens V} (h : Local touched f)
    {gens : Gens V} (hspent : ∀ id, touched id → gens id = []) : (f gens).2 = gens := by
  funext id
  by_cases htouched : touched id
  · rw [hspent id htouched, (h.shrinks gens).eq_nil (hspent id htouched)]
  · exact h.outside gens id htouched

/-- What `next` gives, and what it takes it from. -/
theorem next_some {entries rest : List (FieldValue V)} {gens taken : Gens V} {e : FieldValue V}
    (h : next entries gens = some (e, rest, taken)) :
    Shrunk taken gens ∧ (∀ id, .generator id ∉ entries → taken id = gens id) ∧
      ∀ id, .generator id ∈ rest → .generator id ∈ entries := by
  fun_induction next entries gens with
  | case1 => cases h
  | case2 id entries gens hnil ih =>
    obtain ⟨hshrunk, houtside, hrest⟩ := ih h
    refine ⟨hshrunk, ?_, fun other hother => List.mem_cons_of_mem _ (hrest other hother)⟩
    intro other hother
    exact houtside other fun hmem => hother (List.mem_cons_of_mem _ hmem)
  | case3 id entries gens head tail hcons =>
    cases h
    refine ⟨Shrunk.take hcons, ?_, fun other hother => hother⟩
    intro other hother
    rw [Function.update_of_ne]
    rintro rfl
    exact hother List.mem_cons_self
  | case4 head entries gens hplain =>
    cases h
    exact ⟨Shrunk.refl _, fun _ _ => rfl, fun id hid => List.mem_cons_of_mem _ hid⟩

/-- Nothing is given where nothing is left. -/
theorem next_eq_none_iff {entries : List (FieldValue V)} {gens : Gens V} :
    next entries gens = none ↔ remaining gens entries = [] := by
  unfold remaining
  fun_induction next entries gens with
  | case1 => simp
  | case2 id entries gens hnil ih => rw [ih, List.flatMap_cons, left, hnil, List.nil_append]
  | case3 id entries gens head tail hcons => simp [left, hcons]
  | case4 head entries gens hplain =>
    cases head with
    | generator id => exact absurd rfl (hplain id)
    | _ => simp [left]

/-- `next` depends on the generator objects of the entries. -/
theorem next_congr {touched : ℕ → Prop} {entries : List (FieldValue V)} {gens other : Gens V}
    (hentries : ∀ id, .generator id ∈ entries → touched id)
    (h : ∀ id, touched id → gens id = other id) :
    (next entries gens = none ∧ next entries other = none) ∨
      ∃ e rest taken taken', next entries gens = some (e, rest, taken) ∧
        next entries other = some (e, rest, taken') ∧ ∀ id, touched id → taken id = taken' id := by
  induction entries with
  | nil => exact Or.inl ⟨rfl, rfl⟩
  -- A generator listed first is advanced alike on both sides, being touched; a spent one is passed
  -- over.
  | cons head entries ih =>
    have htail := ih fun id hid => hentries id (List.mem_cons_of_mem _ hid)
    cases head with
    | generator id =>
      have hsame := h id (hentries id List.mem_cons_self)
      cases hleft : gens id with
      | nil =>
        rw [next, next, ← hsame, hleft]
        exact htail
      | cons e tail =>
        rw [next, next, ← hsame, hleft]
        refine Or.inr ⟨e, _, _, _, rfl, rfl, ?_⟩
        -- only the generator just advanced has changed
        intro another hanother
        by_cases hid : another = id
        · rw [hid, Function.update_self, Function.update_self]
        · rw [Function.update_of_ne hid, Function.update_of_ne hid, h another hanother]
    | _ => exact Or.inr ⟨_, _, _, _, rfl, rfl, h⟩

theorem remaining_congr {entries : List (FieldValue V)} {gens other : Gens V}
    (h : ∀ id, .generator id ∈ entries → gens id = other id) :
    remaining gens entries = remaining other entries := by
  apply List.flatMap_congr
  intro e he
  cases e with
  | generator id => exact h id he
  | _ => rfl

/-- Walking the entries touches what they name and what each turn touches. -/
theorem each_local {touched : ℕ → Prop} {body : FieldValue V → Walk C V → Gens V → Walk C V × Gens V}
    (hbody : ∀ e w, Local touched (body e w)) (n : ℕ) {entries : List (FieldValue V)}
    (hentries : ∀ id, .generator id ∈ entries → touched id) (w : Walk C V) :
    Local touched (each body n entries w) := by
  -- By the entries; a generator is drawn from before the body runs, and it is one of those touched.
  induction n generalizing entries w with
  | zero => exact ⟨Shrunk.refl, fun _ _ _ => rfl, fun gens other h => ⟨rfl, h⟩⟩
  | succ n ih =>
    refine ⟨?_, ?_, ?_⟩
    · intro gens
      rw [each]
      split
      · exact Shrunk.refl gens
      · next e rest taken hnext =>
        obtain ⟨htaken, -, hrest⟩ := next_some hnext
        exact ((ih (fun id hid => hentries id (hrest id hid)) _).shrinks _).trans
          (((hbody e w).shrinks taken).trans htaken)
    -- What is not touched is not drawn from.
    · intro gens id hid
      rw [each]
      split
      · rfl
      · next e rest taken hnext =>
        obtain ⟨-, houtside, hrest⟩ := next_some hnext
        rw [(ih (fun id hid => hentries id (hrest id hid)) _).outside _ id hid,
          (hbody e w).outside taken id hid]
        exact houtside id fun hmem => hid (hentries id hmem)
    -- Generators that agree on what is touched yield the same.
    · intro gens other h
      rcases next_congr hentries h with ⟨hnone, hnone'⟩ | ⟨e, rest, taken, taken', hnext, hnext', hsame⟩
      · rw [each, each, hnone, hnone']
        exact ⟨rfl, h⟩
      · rw [each, each, hnext, hnext']
        obtain ⟨hw, hgens⟩ := (hbody e w).congr taken taken' hsame
        obtain ⟨-, -, hrest⟩ := next_some hnext
        dsimp only
        rw [hw]
        exact (ih (fun id hid => hentries id (hrest id hid)) _).congr _ _ hgens

/-- A generator object in the field of one of the names. -/
def Names (self : Layer C V) (todo : List String) (id : ℕ) : Prop :=
  ∃ name ∈ todo, .generator id ∈ self.entries name

/-- The loop touches the generators of its own fields and those its body touches. -/
theorem loop_local {self : Layer C V} {touched : ℕ → Prop} {yields : Walk C V → Gens V → Walk C V × Gens V}
    (hyields : ∀ w, Local touched (yields w)) {todo : List String}
    (htodo : ∀ id, Names self todo id → touched id) (w : Walk C V) :
    Local touched (loop self yields todo w) := by
  induction todo generalizing w with
  | nil => exact hyields w
  | cons eltname todo ih =>
    have hbody : ∀ (e : FieldValue V) (w : Walk C V), Local touched fun gens =>
        loop self yields todo ⟨w.pkts, Function.update w.done eltname (some e)⟩ gens :=
      fun e w => ih (fun id ⟨name, hname, hid⟩ => htodo id ⟨name, List.mem_cons_of_mem _ hname, hid⟩) _
    have hentries : ∀ id, .generator id ∈ self.entries eltname → touched id :=
      fun id hid => htodo id ⟨eltname, List.mem_cons_self, hid⟩
    have hover := fun n => each_local hbody n hentries w
    refine ⟨?_, ?_, ?_⟩
    · intro gens
      exact (hover _).shrinks gens
    · intro gens id hid
      exact (hover _).outside gens id hid
    · intro gens other h
      rw [loop, loop, remaining_congr fun id hid => h id (hentries id hid)]
      exact (hover _).congr gens other h

/-- A generator object in a field that is walked, of the packet or of one behind it. -/
def Held : Chain C V → ℕ → Prop
  | .NoPayload, _ => False
  | .packet self payload, id =>
    (self.explicit = false ∧ self.cached = false ∧ Names self self.todo.reverse id) ∨ Held payload id

section
variable {overloads : C → C → Option (Dict V)} {_fix : V → FieldValue V}

theorem leaf_local {self : Layer C V} {touched : ℕ → Prop}
    {payls : Gens V → List (Option (Clone C V)) × Gens V} (h : Local touched payls) (w : Walk C V) :
    Local touched (leaf overloads _fix self payls w) := by
  refine ⟨h.shrinks, h.outside, ?_⟩
  intro gens other hsame
  obtain ⟨hpayls, hleft⟩ := h.congr gens other hsame
  unfold leaf
  dsimp only
  rw [hpayls]
  exact ⟨rfl, hleft⟩

theorem Local.mono {A : Type} {touched more : ℕ → Prop} {f : Gens V → A × Gens V} (h : Local touched f)
    (hmore : ∀ id, touched id → more id) : Local more f := by
  refine ⟨h.shrinks, fun gens id hid => h.outside gens id fun htouched => hid (hmore id htouched), ?_⟩
  intro gens other hsame
  obtain ⟨hout, hleft⟩ := h.congr gens other fun id hid => hsame id (hmore id hid)
  refine ⟨hout, ?_⟩
  intro id hid
  by_cases htouched : touched id
  · exact hleft id htouched
  · rw [h.outside gens id htouched, h.outside other id htouched, hsame id hid]

/-- **Iterating a packet touches what it holds.** -/
theorem iter_local (chain : Chain C V) : Local (Held chain) (iter overloads _fix chain) := by
  -- By the chain; the payload's own generators are among those the chain holds.
  induction chain with
  | NoPayload => exact ⟨Shrunk.refl, fun _ _ _ => rfl, fun gens other h => ⟨rfl, h⟩⟩
  | packet self payload ih =>
    have hpayloads : Local (Held payload) (payloads overloads _fix payload) := by
      cases payload with
      | NoPayload => exact ⟨Shrunk.refl, fun _ _ _ => rfl, fun gens other h => ⟨rfl, h⟩⟩
      | packet other payload =>
        refine ⟨ih.shrinks, ih.outside, ?_⟩
        intro gens other h
        obtain ⟨hout, hleft⟩ := ih.congr gens other h
        exact ⟨congrArg (List.map some) hout, hleft⟩
    have hmore : Local (Held (.packet self payload)) (payloads overloads _fix payload) :=
      hpayloads.mono fun id hid => Or.inr hid
    have hwalk : Local (Held (.packet self payload)) fun gens =>
        if self.explicit ∨ self.cached then
          leaf overloads _fix self (payloads overloads _fix payload) ⟨[], self.fields.get⟩ gens
        else loop self (leaf overloads _fix self (payloads overloads _fix payload)) self.todo.reverse
          ⟨[], fun _ => none⟩ gens := by
      -- An explicit packet is walked as it is, any other is looped over.
      by_cases hclosed : self.explicit ∨ self.cached
      · simp only [if_pos hclosed]
        exact leaf_local hmore _
      · simp only [if_neg hclosed]
        apply loop_local (leaf_local hmore)
        intro id hid
        rw [not_or, Bool.not_eq_true, Bool.not_eq_true] at hclosed
        exact Or.inl ⟨hclosed.1, hclosed.2, hid⟩
    refine ⟨?_, ?_, ?_⟩
    · intro gens
      rw [iter_packet]
      exact hwalk.shrinks gens
    · intro gens id hid
      rw [iter_packet]
      exact hwalk.outside gens id hid
    · intro gens other h
      rw [iter_packet, iter_packet]
      obtain ⟨hout, hleft⟩ := hwalk.congr gens other h
      exact ⟨congrArg Walk.pkts hout, hleft⟩

theorem payloads_local (payload : Chain C V) : Local (Held payload) (payloads overloads _fix payload) := by
  cases payload with
  | NoPayload => exact ⟨Shrunk.refl, fun _ _ _ => rfl, fun gens other h => ⟨rfl, h⟩⟩
  | packet self payload =>
    have hiter : Local (Held (.packet self payload)) (iter overloads _fix (.packet self payload)) :=
      iter_local _
    refine ⟨hiter.shrinks, hiter.outside, ?_⟩
    intro gens other h
    obtain ⟨hout, hleft⟩ := hiter.congr gens other h
    exact ⟨congrArg (List.map some) hout, hleft⟩

end

end Wiry.Pylayer
