/-
The product a Python packet stands for, and where its walk finds the generator objects as they were,
`PyPacket.__iter__` of `python/wiry/_pylayer.py`.

The packets described are read off the fields as they stand: one element for each name, and one
expansion of the payload. A walk gives these, name after name, where no branch of it finds a generator
object that an earlier one has walked (`Fresh`, `loop_fresh`); and it gives nothing at all, whatever
is left of the generator objects, where a field it walks has no elements (`Barren`).
-/
import Mathlib.Algebra.BigOperators.Group.List.Basic
import Mathlib.Algebra.BigOperators.Ring.List
import Mathlib.Algebra.Ring.Nat
import Mathlib.Data.List.Dedup
import Mathlib.Tactic.Common
import Wiry.Pylayer.Expand

set_option autoImplicit false

namespace Wiry.Pylayer

variable {V C : Type}

/-! ## The product -/

/-- The elements of the field of a name: what each of its generator objects has left among them. -/
def Layer.elements (self : Layer C V) (gens : Gens V) (name : String) : List (FieldValue V) :=
  remaining gens (self.entries name)

/-- The distinct names, in the order they are walked. -/
def Layer.names (self : Layer C V) : List String := self.todo.reverse.dedup

/-- One element for each of the names, whatever was done before. -/
def assignments (gens : Gens V) (self : Layer C V) :
    List String → (String → Option (FieldValue V)) → List (String → Option (FieldValue V))
  | [], done => [done]
  | eltname :: todo, done =>
    (self.elements gens eltname).flatMap fun e =>
      assignments gens self todo (Function.update done eltname (some e))

section
variable (overloads : C → C → Option (Dict V)) (_fix : V → FieldValue V)

/-- The packets described: one for each assignment and each expansion of the payload. -/
def described (self : Layer C V) (payload : Chain C V) (gens : Gens V) : List (Clone C V) :=
  (assignments gens self self.names fun _ => none).flatMap
    (made overloads _fix self (payloads overloads _fix payload gens).1)

/-- The expansion is the product: the packets described in some order, as many as the elements of the
fields and the expansions of the payload multiply to, each other field with its own value. -/
def ExactProduct (self : Layer C V) (payload : Chain C V) (gens : Gens V) : Prop :=
  (iter overloads _fix (.packet self payload) gens).1.Perm (described overloads _fix self payload gens) ∧
    (iter overloads _fix (.packet self payload) gens).1.length =
      (self.names.map fun name => (self.elements gens name).length).prod *
        (payloads overloads _fix payload gens).1.length ∧
    ∀ pkt ∈ (iter overloads _fix (.packet self payload) gens).1, ∀ attr, attr ∉ self.names →
      (self.getfieldval attr).isSome → pkt.getfieldval attr = self.getfieldval attr

end

variable {self : Layer C V} {gens : Gens V}

/-- The assignments do not depend on what the names to do were before. -/
theorem assignments_congr {todo : List String} {done other : String → Option (FieldValue V)}
    (h : ∀ name, name ∉ todo → done name = other name) :
    assignments gens self todo done = assignments gens self todo other := by
  induction todo generalizing done other with
  | nil =>
    rw [funext fun name => h name List.not_mem_nil]
  | cons head todo ih =>
    rw [assignments, assignments]
    congr 1
    funext e
    apply ih
    intro name hname
    by_cases hhead : name = head
    · rw [hhead, Function.update_self, Function.update_self]
    · rw [Function.update_of_ne hhead, Function.update_of_ne hhead]
      apply h
      intro hmem
      rcases List.mem_cons.1 hmem with hmem | hmem
      · exact hhead hmem
      · exact hname hmem

/-- What is done before a name is done again does not show. -/
theorem assignments_update {todo : List String} {name : String} (h : name ∈ todo)
    (done : String → Option (FieldValue V)) (x : Option (FieldValue V)) :
    assignments gens self todo (Function.update done name x) = assignments gens self todo done := by
  apply assignments_congr
  intro other hother
  rw [Function.update_of_ne]
  rintro rfl
  exact hother h

/-- What the assignments leave alone is as it was done. -/
theorem assignments_of_not_mem {todo : List String} {done c : String → Option (FieldValue V)}
    (hc : c ∈ assignments gens self todo done) {name : String} (h : name ∉ todo) : c name = done name := by
  induction todo generalizing done with
  | nil => rw [List.mem_singleton.1 hc]
  | cons head todo ih =>
    rw [List.mem_cons, not_or] at h
    rw [assignments, List.mem_flatMap] at hc
    obtain ⟨e, -, hc⟩ := hc
    rw [ih hc h.2, Function.update_of_ne h.1]

theorem length_assignments (todo : List String) (done : String → Option (FieldValue V)) :
    (assignments gens self todo done).length =
      (todo.map fun name => (self.elements gens name).length).prod := by
  induction todo generalizing done with
  | nil => rfl
  | cons head todo ih =>
    rw [assignments, List.length_flatMap, List.map_cons, List.prod_cons]
    simp only [ih, List.map_const', List.sum_replicate, Nat.nsmul_eq_mul]

/-! ## Names listed more than once -/

/-- A name listed twice makes no difference where its field has one element. -/
theorem assignments_dedup {todo : List String}
    (h : ∀ name, 1 < todo.count name → (self.elements gens name).length = 1)
    (done : String → Option (FieldValue V)) :
    assignments gens self todo done = assignments gens self todo.dedup done := by
  induction todo generalizing done with
  | nil => rfl
  | cons head todo ih =>
    have hrest : ∀ name, 1 < todo.count name → (self.elements gens name).length = 1 := by
      intro name hcount
      apply h
      rw [List.count_cons]
      omega
    by_cases hmem : head ∈ todo
    · have hcount : 1 < (head :: todo).count head := by
        rw [List.count_cons_self]
        have hpos := List.count_pos_iff.2 hmem
        omega
      -- the one element is written now and once more further on
      obtain ⟨e, he⟩ := List.length_eq_one_iff.1 (h head hcount)
      rw [List.dedup_cons_of_mem hmem, assignments, he, List.flatMap_cons, List.flatMap_nil,
        List.append_nil, assignments_update hmem]
      exact ih hrest done
    · rw [List.dedup_cons_of_notMem hmem, assignments, assignments]
      congr 1
      funext e
      exact ih hrest _

/-- A product over the distinct elements of a list is the one over all of them only where the repeated
ones count for nothing. -/
theorem prod_dedup {f : String → ℕ} {todo : List String} (hpos : ∀ name ∈ todo, 1 ≤ f name) :
    (todo.dedup.map f).prod ≤ (todo.map f).prod ∧
      ((todo.map f).prod = (todo.dedup.map f).prod → ∀ name, 1 < todo.count name → f name = 1) := by
  induction todo with
  | nil => exact ⟨Nat.le_refl _, fun _ name hcount => absurd hcount (by rw [List.count_nil]; omega)⟩
  | cons head todo ih =>
    obtain ⟨hle, heq⟩ := ih fun name hname => hpos name (List.mem_cons_of_mem _ hname)
    have hhead := hpos head List.mem_cons_self
    have hprod : 0 < (todo.map f).prod := by
      apply Nat.pos_of_ne_zero
      apply List.prod_ne_zero
      intro hzero
      obtain ⟨name, hname, hf⟩ := List.mem_map.1 hzero
      have hone := hpos name (List.mem_cons_of_mem _ hname)
      omega
    rw [List.map_cons, List.prod_cons]
    by_cases hmem : head ∈ todo
    · rw [List.dedup_cons_of_mem hmem]
      have hgrow : (todo.map f).prod ≤ f head * (todo.map f).prod := Nat.le_mul_of_pos_left _ hhead
      refine ⟨Nat.le_trans hle hgrow, ?_⟩
      intro hsame name hcount
      -- the shorter product is within the longer one without the repeated name
      have hone : f head = 1 := by
        have hcancel : f head * (todo.map f).prod = 1 * (todo.map f).prod := by omega
        exact Nat.eq_of_mul_eq_mul_right hprod hcancel
      by_cases hname : name = head
      · rw [hname, hone]
      · rw [List.count_cons_of_ne fun hother => hname hother.symm] at hcount
        exact heq (by omega) name hcount
    · rw [List.dedup_cons_of_notMem hmem, List.map_cons, List.prod_cons]
      refine ⟨Nat.mul_le_mul_left _ hle, ?_⟩
      intro hsame name hcount
      have hrest := Nat.eq_of_mul_eq_mul_left hhead hsame
      by_cases hname : name = head
      · rw [hname, List.count_cons_self, List.count_eq_zero.2 hmem] at hcount
        omega
      · rw [List.count_cons_of_ne fun hother => hname hother.symm] at hcount
        exact heq hrest name hcount

/-! ## No generator object walked by two branches -/

/-- The generator objects among the entries. -/
def objects (entries : List (FieldValue V)) : List ℕ :=
  entries.filterMap fun e => match e with
    | .generator id => some id
    | _ => none

/-- Those that have something left. -/
def live (gens : Gens V) (entries : List (FieldValue V)) : List ℕ :=
  (objects entries).filter fun id => !(gens id).isEmpty

/-- What is still to be walked under a name: the names after it and the payload. -/
def Inner (self : Layer C V) (todo : List String) (payload : Chain C V) (id : ℕ) : Prop :=
  Names self todo id ∨ Held payload id

/-- Every name finds its generator objects as they were: they are named once, nothing further in walks
them, and where anything further in walks one that has something left, it is walked in one branch. -/
def Fresh (gens : Gens V) (self : Layer C V) (payload : Chain C V) : List String → Prop
  | [] => True
  | name :: todo =>
    (live gens (self.entries name)).Nodup ∧
      (∀ id ∈ live gens (self.entries name), ¬ Inner self todo payload id) ∧
      ((∀ id, Inner self todo payload id → gens id = []) ∨ (self.elements gens name).length ≤ 1) ∧
      Fresh gens self payload todo

/-- The generator objects among a field's values. -/
@[simp]
theorem mem_objects {entries : List (FieldValue V)} {id : ℕ} :
    id ∈ objects entries ↔ .generator id ∈ entries := by
  unfold objects
  rw [List.mem_filterMap]
  constructor
  · rintro ⟨e, he, hid⟩
    cases e with
    | generator other =>
      rw [Option.some.inj hid] at he
      exact he
    | _ => cases hid
  · intro h
    exact ⟨_, h, rfl⟩

@[simp]
theorem mem_live {entries : List (FieldValue V)} {id : ℕ} :
    id ∈ live gens entries ↔ .generator id ∈ entries ∧ gens id ≠ [] := by
  unfold live
  rw [List.mem_filter, mem_objects]
  simp

theorem live_cons_generator (id : ℕ) (entries : List (FieldValue V)) :
    live gens (.generator id :: entries) =
      if gens id = [] then live gens entries else id :: live gens entries := by
  cases h : gens id <;> simp [live, objects, h]

theorem live_cons_plain {e : FieldValue V} (h : ∀ id, e ≠ .generator id) (entries : List (FieldValue V)) :
    live gens (e :: entries) = live gens entries := by
  cases e with
  | generator id => exact absurd rfl (h id)
  | _ => rfl

theorem live_congr {entries : List (FieldValue V)} {other : Gens V}
    (h : ∀ id, .generator id ∈ entries → gens id = other id) : live gens entries = live other entries := by
  unfold live
  apply List.filter_congr
  intro id hid
  rw [h id (mem_objects.1 hid)]

/-- Where no generator object is named twice, `next` gives the first of what is left, and leaves the
rest of it. -/
theorem next_of_nodup {entries : List (FieldValue V)} (hnodup : (live gens entries).Nodup) {e : FieldValue V}
    {elements : List (FieldValue V)} (h : remaining gens entries = e :: elements) :
    ∃ rest taken, next entries gens = some (e, rest, taken) ∧ remaining taken rest = elements ∧
      (live taken rest).Nodup ∧ (∀ id ∈ live taken rest, id ∈ live gens entries) ∧
      ∀ id, id ∉ live gens entries → taken id = gens id := by
  fun_induction next entries gens with
  | case1 => cases h
  | case2 id entries gens hnil ih =>
    rw [live_cons_generator, if_pos hnil] at hnodup ⊢
    rw [remaining, List.flatMap_cons, left, hnil, List.nil_append] at h
    exact ih hnodup h
  | case3 id entries gens head tail hcons =>
    have hlive : gens id ≠ [] := by
      rw [hcons]
      exact List.cons_ne_nil _ _
    rw [live_cons_generator, if_neg hlive] at hnodup ⊢
    obtain ⟨hid, hnodup⟩ := List.nodup_cons.1 hnodup
    rw [remaining, List.flatMap_cons, left, hcons, List.cons_append] at h
    obtain ⟨rfl, rfl⟩ := List.cons.inj h
    -- what is named further on is another generator object
    have hother : ∀ other, .generator other ∈ entries → Function.update gens id tail other = gens other := by
      intro other hmem
      rw [Function.update_of_ne]
      rintro rfl
      exact hid (mem_live.2 ⟨hmem, hlive⟩)
    have hrest : live (Function.update gens id tail) entries = live gens entries := live_congr hother
    refine ⟨_, _, rfl, ?_, ?_, ?_, ?_⟩
    · rw [remaining, List.flatMap_cons, left, Function.update_self]
      congr 1
      exact remaining_congr hother
    · rw [live_cons_generator, hrest]
      split
      · exact hnodup
      · exact List.nodup_cons.2 ⟨hid, hnodup⟩
    · intro other hmem
      rw [live_cons_generator, hrest] at hmem
      split at hmem
      · exact List.mem_cons_of_mem _ hmem
      · exact hmem
    · intro other hmem
      rw [Function.update_of_ne]
      rintro rfl
      exact hmem List.mem_cons_self
  | case4 head entries gens hplain =>
    have hgenerator : ∀ id, head ≠ .generator id := fun id hid => hplain id hid
    rw [live_cons_plain hgenerator] at hnodup ⊢
    have hleft : left gens head = [head] := by
      cases head with
      | generator id => exact absurd rfl (hgenerator id)
      | _ => rfl
    rw [remaining, List.flatMap_cons, hleft, List.cons_append, List.nil_append] at h
    obtain ⟨rfl, rfl⟩ := List.cons.inj h
    exact ⟨_, _, rfl, rfl, hnodup, fun id hid => hid, fun _ _ => rfl⟩

/-- The walk over the entries of one name: each turn does what it does at `gens`, since nothing further
in is taken from between the turns. -/
theorem each_fresh (gens : Gens V) (kept : (String → Option (FieldValue V)) → Prop) {inner : ℕ → Prop}
    {body : FieldValue V → Walk C V → Gens V → Walk C V × Gens V}
    {out : FieldValue V → List (Clone C V)}
    (hlocal : ∀ e w, Local inner (body e w))
    (hbody : ∀ e w now, kept w.done → (∀ id, inner id → now id = gens id) →
      (body e w now).1.pkts = w.pkts ++ out e ∧ kept (body e w now).1.done)
    (n : ℕ) {entries : List (FieldValue V)} {w : Walk C V} {now : Gens V} (hkept : kept w.done)
    (hcount : (remaining now entries).length ≤ n) (hnodup : (live now entries).Nodup)
    (hapart : ∀ id ∈ live now entries, ¬ inner id) (hnow : ∀ id, inner id → now id = gens id)
    (hinner : (∀ id, inner id → gens id = []) ∨ (remaining now entries).length ≤ 1) :
    (each body n entries w now).1.pkts = w.pkts ++ (remaining now entries).flatMap out ∧
      kept (each body n entries w now).1.done := by
  induction n generalizing entries w now with
  | zero =>
    have hnil : remaining now entries = [] := List.length_eq_zero_iff.1 (Nat.le_zero.1 hcount)
    rw [hnil, List.flatMap_nil, List.append_nil]
    exact ⟨rfl, hkept⟩
  | succ n ih =>
    cases hleft : remaining now entries with
    | nil =>
      rw [each, next_eq_none_iff.2 hleft, List.flatMap_nil, List.append_nil]
      exact ⟨rfl, hkept⟩
    | cons e elements =>
      obtain ⟨rest, taken, hnext, hrest, hnodup', hlive, hsame⟩ := next_of_nodup hnodup hleft
      have htaken : ∀ id, inner id → taken id = gens id := fun id hid =>
        (hsame id fun hmem => hapart id hmem hid).trans (hnow id hid)
      obtain ⟨hpkts, hdone⟩ := hbody e w taken hkept htaken
      rw [hleft, List.length_cons] at hcount hinner
      -- the rest of the entries is left alone by the turn
      have hquiet : ∀ id, .generator id ∈ rest → (body e w taken).2 id = taken id := by
        intro id hid
        by_cases hnil : taken id = []
        · rw [hnil, ((hlocal e w).shrinks taken).eq_nil hnil]
        · exact (hlocal e w).outside taken id (hapart id (hlive id (mem_live.2 ⟨hid, hnil⟩)))
      have hremaining : remaining (body e w taken).2 rest = elements :=
        (remaining_congr hquiet).trans hrest
      rw [each, hnext]
      dsimp only
      rcases hinner with hspent | hone
      · -- nothing further in has anything left, and no turn changes it
        have hunchanged : (body e w taken).2 = taken :=
          (hlocal e w).unchanged fun id hid => (htaken id hid).trans (hspent id hid)
        have hind := ih hdone (by rw [hremaining]; omega)
          (by rw [live_congr hquiet]; exact hnodup')
          (by rw [live_congr hquiet]; exact fun id hid => hapart id (hlive id hid))
          (by rw [hunchanged]; exact htaken) (Or.inl hspent)
        rw [hremaining, hpkts, List.append_assoc] at hind
        exact hind
      · -- this was the only turn
        have hnil : elements = [] := List.length_eq_zero_iff.1 (by omega)
        subst hnil
        have hlast : each body n rest (body e w taken).1 (body e w taken).2 = body e w taken := by
          cases n with
          | zero => rfl
          | succ n => rw [each, next_eq_none_iff.2 hremaining]
        rw [hlast, hpkts, List.flatMap_cons, List.flatMap_nil, List.append_nil]
        exact ⟨rfl, hdone⟩

/-- **The dictionary the branches share**: each writes every name it has to do before it yields, so
what another one has left in it does not show. -/
theorem loop_fresh {payload : Chain C V} {yields : Walk C V → Gens V → Walk C V × Gens V}
    {out : (String → Option (FieldValue V)) → List (Clone C V)}
    (hlocal : ∀ w, Local (Held payload) (yields w))
    (hyields : ∀ w now, (∀ id, Held payload id → now id = gens id) →
      (yields w now).1 = ⟨w.pkts ++ out w.done, w.done⟩)
    {todo : List String} (hfresh : Fresh gens self payload todo) (w : Walk C V) {now : Gens V}
    (hnow : ∀ id, Inner self todo payload id → now id = gens id) :
    (loop self yields todo w now).1.pkts = w.pkts ++ (assignments gens self todo w.done).flatMap out ∧
      ∀ name, name ∉ todo → (loop self yields todo w now).1.done name = w.done name := by
  induction todo generalizing w now with
  | nil =>
    rw [loop, hyields w now fun id hid => hnow id (Or.inr hid), assignments, List.flatMap_cons,
      List.flatMap_nil, List.append_nil]
    exact ⟨rfl, fun name _ => rfl⟩
  | cons head todo ih =>
    obtain ⟨hnodup, hapart, hinner, hfresh⟩ := hfresh
    have hentries : ∀ id, .generator id ∈ self.entries head → now id = gens id := fun id hid =>
      hnow id (Or.inl ⟨head, List.mem_cons_self, hid⟩)
    have hinside : ∀ id, Inner self todo payload id → now id = gens id := by
      rintro id (⟨name, hname, hid⟩ | hid)
      · exact hnow id (Or.inl ⟨name, List.mem_cons_of_mem _ hname, hid⟩)
      · exact hnow id (Or.inr hid)
    have hremaining : remaining now (self.entries head) = self.elements gens head := remaining_congr hentries
    have hlocal' : ∀ (e : FieldValue V) (v : Walk C V), Local (Inner self todo payload)
        (loop self yields todo ⟨v.pkts, Function.update v.done head (some e)⟩) := fun e v =>
      loop_local (fun w => (hlocal w).mono fun id hid => Or.inr hid) (fun id hid => Or.inl hid) _
    -- the branches walked so far have left names of the walk in the dictionary, and no others
    have hbody : ∀ (e : FieldValue V) (v : Walk C V) (now : Gens V),
        (∀ name, name ∉ head :: todo → v.done name = w.done name) →
        (∀ id, Inner self todo payload id → now id = gens id) →
        (loop self yields todo ⟨v.pkts, Function.update v.done head (some e)⟩ now).1.pkts =
            v.pkts ++ (assignments gens self todo (Function.update w.done head (some e))).flatMap out ∧
          ∀ name, name ∉ head :: todo →
            (loop self yields todo ⟨v.pkts, Function.update v.done head (some e)⟩ now).1.done name =
              w.done name := by
      intro e v now hkept hnow
      obtain ⟨hpkts, hdone⟩ := ih hfresh ⟨v.pkts, Function.update v.done head (some e)⟩ hnow
      -- what an earlier branch left under the names still to do is overwritten
      have hsame : assignments gens self todo (Function.update v.done head (some e)) =
          assignments gens self todo (Function.update w.done head (some e)) := by
        apply assignments_congr
        intro name hname
        by_cases hhead : name = head
        · rw [hhead, Function.update_self, Function.update_self]
        · rw [Function.update_of_ne hhead, Function.update_of_ne hhead]
          apply hkept
          rw [List.mem_cons, not_or]
          exact ⟨hhead, hname⟩
      rw [hsame] at hpkts
      refine ⟨hpkts, ?_⟩
      intro name hname
      have hname' := hname
      rw [List.mem_cons, not_or] at hname'
      exact (hdone name hname'.2).trans ((Function.update_of_ne hname'.1 _ _).trans (hkept name hname))
    have hover := each_fresh gens (fun done => ∀ name, name ∉ head :: todo → done name = w.done name)
      hlocal' hbody (remaining now (self.entries head)).length (fun name _ => rfl) (Nat.le_refl _)
      (by rw [live_congr hentries]; exact hnodup) (by rw [live_congr hentries]; exact hapart) hinside
      (by rw [hremaining]; exact hinner)
    rw [loop, assignments, List.flatMap_assoc, ← hremaining]
    exact hover

/-! ## A packet that describes none -/

/-- A packet that describes none: a field of it or of a packet behind it has no elements. -/
def Barren (gens : Gens V) : Chain C V → Prop
  | .NoPayload => False
  | .packet self payload =>
    (self.explicit = false ∧ self.cached = false ∧ ∃ name ∈ self.todo, self.elements gens name = []) ∨
      Barren gens payload

/-- Every packet of the chain that is walked finds its generator objects as they were. -/
def Unshared (gens : Gens V) : Chain C V → Prop
  | .NoPayload => True
  | .packet self payload =>
    (self.explicit = false → self.cached = false → Fresh gens self payload self.todo.reverse) ∧
      Unshared gens payload

section
variable {overloads : C → C → Option (Dict V)} {_fix : V → FieldValue V} {payload : Chain C V}

theorem remaining_eq_nil_of_shrunk {entries : List (FieldValue V)} {now : Gens V} (hnow : Shrunk now gens)
    (h : remaining gens entries = []) : remaining now entries = [] := by
  unfold remaining at h ⊢
  rw [List.flatMap_eq_nil_iff] at h ⊢
  intro e he
  have hleft := h e he
  cases e with
  | generator id => exact hnow.eq_nil hleft
  | _ => cases hleft

/-- Turns that make nothing, wherever they are, make nothing together. -/
theorem each_quiet {body : FieldValue V → Walk C V → Gens V → Walk C V × Gens V} {touched : ℕ → Prop}
    (hlocal : ∀ e w, Local touched (body e w))
    (hbody : ∀ e w now, Shrunk now gens → (body e w now).1.pkts = w.pkts) (n : ℕ)
    (entries : List (FieldValue V)) (w : Walk C V) {now : Gens V} (hnow : Shrunk now gens) :
    (each body n entries w now).1.pkts = w.pkts := by
  induction n generalizing entries w now with
  | zero => rfl
  | succ n ih =>
    rw [each]
    split
    · rfl
    · next e rest taken hnext =>
      have htaken : Shrunk taken gens := (next_some hnext).1.trans hnow
      exact (ih rest _ (((hlocal e w).shrinks taken).trans htaken)).trans (hbody e w taken htaken)

/-- A walk makes nothing where what it yields makes nothing or a name of it has no elements. -/
theorem loop_quiet {yields : Walk C V → Gens V → Walk C V × Gens V} {touched : ℕ → Prop}
    (hlocal : ∀ w, Local touched (yields w)) {todo : List String}
    (h : (∀ w now, Shrunk now gens → (yields w now).1.pkts = w.pkts) ∨
      ∃ name ∈ todo, self.elements gens name = [])
    (w : Walk C V) {now : Gens V} (hnow : Shrunk now gens) :
    (loop self yields todo w now).1.pkts = w.pkts := by
  -- On the fields still to walk: the quiet one is here, or among the rest, or nothing is ever
  -- yielded.
  induction todo generalizing w now with
  | nil =>
    rcases h with hyields | ⟨name, hname, -⟩
    · exact hyields w now hnow
    · exact absurd hname List.not_mem_nil
  | cons head todo ih =>
    have hrest : ((∀ w now, Shrunk now gens → (yields w now).1.pkts = w.pkts) ∨
        ∃ name ∈ todo, self.elements gens name = []) ∨ self.elements gens head = [] := by
      rcases h with hyields | ⟨name, hname, hnil⟩
      · exact Or.inl (Or.inl hyields)
      · rcases List.mem_cons.1 hname with rfl | hname
        · exact Or.inr hnil
        · exact Or.inl (Or.inr ⟨name, hname, hnil⟩)
    rw [loop]
    rcases hrest with hrest | hnil
    -- what a turn of this field yields depends on the generators below it alone
    · have hlocal' : ∀ (e : FieldValue V) (v : Walk C V), Local (fun id => touched id ∨ Names self todo id)
          (loop self yields todo ⟨v.pkts, Function.update v.done head (some e)⟩) := fun e v =>
        loop_local (fun w => (hlocal w).mono fun id hid => Or.inl hid) (fun id hid => Or.inr hid) _
      exact each_quiet hlocal' (fun e v now hnow => ih hrest _ hnow) _ _ w hnow
    · have hnone : remaining now (self.entries head) = [] := remaining_eq_nil_of_shrunk hnow hnil
      rw [hnone]
      rfl

/-- A chain with an empty field yields nothing, however far its generators have been drawn. -/
theorem iter_of_barren {chain : Chain C V} (h : Barren gens chain) {now : Gens V} (hnow : Shrunk now gens) :
    (iter overloads _fix chain now).1 = [] := by
  induction chain generalizing now with
  | NoPayload => rfl
  -- A layer yields nothing where one of its fields has no value, or the payload yields nothing.
  | packet self payload ih =>
    have hlocal : ∀ w : Walk C V,
        Local (Held payload) (leaf overloads _fix self (payloads overloads _fix payload) w) :=
      leaf_local (payloads_local payload)
    have hleaf : Barren gens payload → ∀ (w : Walk C V) now, Shrunk now gens →
        (leaf overloads _fix self (payloads overloads _fix payload) w now).1.pkts = w.pkts := by
      intro hbarren w now hnow
      cases payload with
      | NoPayload => exact hbarren.elim
      | packet other payload =>
        unfold leaf payloads made
        dsimp only
        rw [ih hbarren hnow, List.map_nil, List.map_nil, List.append_nil]
    rw [iter_packet]
    rcases h with ⟨hexplicit, hcached, hname⟩ | hbarren
    · rw [hexplicit, hcached, if_neg (by decide)]
      apply loop_quiet hlocal (Or.inr _) _ hnow
      obtain ⟨name, hname, hnil⟩ := hname
      exact ⟨name, List.mem_reverse.2 hname, hnil⟩
    · split
      · exact hleaf hbarren _ _ hnow
      · exact loop_quiet hlocal (Or.inl (hleaf hbarren)) _ hnow

/-- What a packet's own fields are walked to: as they are in an explicit packet or one with a cache. -/
def Layer.walked (self : Layer C V) (gens : Gens V) : List (String → Option (FieldValue V)) :=
  if self.explicit ∨ self.cached then [self.fields.get]
  else assignments gens self self.todo.reverse fun _ => none

theorem walked_of_open (hexplicit : self.explicit = false) (hcached : self.cached = false) :
    self.walked gens = assignments gens self self.todo.reverse fun _ => none := by
  unfold Layer.walked
  rw [hexplicit, hcached, if_neg (by decide)]

/-- What a packet is iterated to where its walk finds its generator objects as they were. -/
theorem iter_of_fresh
    (hfresh : self.explicit = false → self.cached = false → Fresh gens self payload self.todo.reverse) :
    (iter overloads _fix (.packet self payload) gens).1 =
      (self.walked gens).flatMap (made overloads _fix self (payloads overloads _fix payload gens).1) := by
  have hlocal : ∀ w : Walk C V,
      Local (Held payload) (leaf overloads _fix self (payloads overloads _fix payload) w) :=
    leaf_local (payloads_local payload)
  -- The payload's generators are untouched until the leaf, so each leaf meets the same packets.
  have hleaf : ∀ (w : Walk C V) now, (∀ id, Held payload id → now id = gens id) →
      (leaf overloads _fix self (payloads overloads _fix payload) w now).1 =
        ⟨w.pkts ++ made overloads _fix self (payloads overloads _fix payload gens).1 w.done, w.done⟩ := by
    intro w now hnow
    have hpayls : (payloads overloads _fix payload now).1 = (payloads overloads _fix payload gens).1 :=
      ((payloads_local payload).congr now gens hnow).1
    unfold leaf
    dsimp only
    rw [hpayls]
  rw [iter_packet]
  unfold Layer.walked
  dsimp only
  split
  · rw [hleaf _ gens fun _ _ => rfl, List.flatMap_cons, List.flatMap_nil, List.append_nil]
    exact List.nil_append _
  · next hclosed =>
    rw [not_or, Bool.not_eq_true, Bool.not_eq_true] at hclosed
    exact (loop_fresh hlocal hleaf (hfresh hclosed.1 hclosed.2) _ fun _ _ => rfl).1

theorem length_flatMap_made (found : List (String → Option (FieldValue V)))
    (payls : List (Option (Clone C V))) :
    (found.flatMap (made overloads _fix self payls)).length = found.length * payls.length := by
  unfold made
  rw [List.length_flatMap]
  simp only [List.length_map, List.map_const', List.sum_replicate, Nat.nsmul_eq_mul]

/-- A layer has no assignments exactly when one of its listed fields has no element. -/
theorem walked_eq_nil_iff (self : Layer C V) (gens : Gens V) :
    self.walked gens = [] ↔
      self.explicit = false ∧ self.cached = false ∧ ∃ name ∈ self.todo, self.elements gens name = [] := by
  -- An explicit or cached layer is walked once, so it has its one assignment.
  by_cases hopen : self.explicit = false ∧ self.cached = false
  · rw [walked_of_open hopen.1 hopen.2, ← List.length_eq_zero_iff, length_assignments,
      List.prod_eq_zero_iff, List.mem_map]
    constructor
    · rintro ⟨name, hname, hnone⟩
      exact ⟨hopen.1, hopen.2, name, List.mem_reverse.1 hname, List.length_eq_zero_iff.1 hnone⟩
    · rintro ⟨-, -, name, hname, hnone⟩
      exact ⟨name, List.mem_reverse.2 hname, List.length_eq_zero_iff.2 hnone⟩
  · have hclosed : self.explicit ∨ self.cached := by
      cases hexplicit : self.explicit with
      | true => exact Or.inl rfl
      | false =>
        cases hcached : self.cached with
        | true => exact Or.inr rfl
        | false => exact absurd ⟨hexplicit, hcached⟩ hopen
    unfold Layer.walked
    rw [if_pos hclosed]
    constructor
    · intro h
      cases h
    · rintro ⟨hexplicit, hcached, -⟩
      exact absurd ⟨hexplicit, hcached⟩ hopen

/-- A payload whose generator objects are each walked by one branch expands to nothing only where a
field of it has no elements. -/
theorem payloads_eq_nil_iff (h : Unshared gens payload) :
    (payloads overloads _fix payload gens).1 = [] ↔ Barren gens payload := by
  induction payload with
  | NoPayload =>
    unfold payloads Barren
    simp
  | packet self payload ih =>
    have hlength : (iter overloads _fix (.packet self payload) gens).1.length =
        (self.walked gens).length * (payloads overloads _fix payload gens).1.length := by
      rw [iter_of_fresh h.1, length_flatMap_made]
    rw [Barren, ← ih h.2, ← walked_eq_nil_iff]
    show (iter overloads _fix (.packet self payload) gens).1.map some = [] ↔ _
    rw [List.map_eq_nil_iff, ← List.length_eq_zero_iff, hlength, Nat.mul_eq_zero, List.length_eq_zero_iff,
      List.length_eq_zero_iff]

theorem mem_names {attr : String} : attr ∈ self.names ↔ attr ∈ self.todo := by
  unfold Layer.names
  rw [List.mem_dedup, List.mem_reverse]

theorem length_described (self : Layer C V) (payload : Chain C V) (gens : Gens V) :
    (described overloads _fix self payload gens).length =
      (self.names.map fun name => (self.elements gens name).length).prod *
        (payloads overloads _fix payload gens).1.length := by
  unfold described
  rw [length_flatMap_made, length_assignments]

/-- A packet that describes none has an empty product: of its own fields, or of what is behind it. -/
theorem described_of_barren (h : Barren gens (.packet self payload)) :
    described overloads _fix self payload gens = [] := by
  rw [← List.length_eq_zero_iff, length_described]
  rcases h with ⟨-, -, name, hname, hnil⟩ | hbarren
  · have hprod : (self.names.map fun name => (self.elements gens name).length).prod = 0 := by
      rw [List.prod_eq_zero_iff, List.mem_map]
      exact ⟨name, mem_names.2 hname, List.length_eq_zero_iff.2 hnil⟩
    rw [hprod, Nat.zero_mul]
  · have hnil : (payloads overloads _fix payload gens).1 = [] := by
      cases payload with
      | NoPayload => exact hbarren.elim
      | packet other payload =>
        exact List.map_eq_nil_iff.2 (iter_of_barren hbarren (Shrunk.refl gens))
    rw [hnil, List.length_nil, Nat.mul_zero]

theorem exact_of_barren (h : Barren gens (.packet self payload)) :
    ExactProduct overloads _fix self payload gens := by
  have hnone : (iter overloads _fix (.packet self payload) gens).1 = [] := iter_of_barren h (Shrunk.refl gens)
  have hdescribed : described overloads _fix self payload gens = [] := described_of_barren h
  refine ⟨?_, ?_, ?_⟩
  · rw [hnone, hdescribed]
  · rw [hnone, ← length_described, hdescribed]
  · intro pkt hpkt
    rw [hnone] at hpkt
    exact absurd hpkt List.not_mem_nil

end

end Wiry.Pylayer
