/-
What a walk over repeated groups of `crates/wiry-core/src/repeat.rs` spends and puts out.

Every item a walk puts out is paid for, but for one: a nested group's own item, which is put out
whether or not there was anything left to pay it with. On the other side are the items paid for
nothing, by a turn that found no whole element or for an element that is only its value. `Nested`
carries these counts, and what they come to, through as many levels as there are.
-/
import Wiry.Repeat.Turns

set_option autoImplicit false

namespace Wiry.Repeat

open Packet (Bytes FieldDesc slice slice_checked)
open Options (Item ItemValue Entry)
open Checked (fit add fit_bind add_bind some_bind)

/-! ## Weighing items -/

mutual

/-- What weighs on a value: its own leaf, or the items it holds. -/
def value_weight (each : ℕ) (leaf : ItemValue → ℕ) : ItemValue → ℕ
  | .Items l => weight each leaf l
  | v => leaf v

/-- What items weigh, `each` one and everything in it. -/
def weight (each : ℕ) (leaf : ItemValue → ℕ) : List Item → ℕ
  | [] => 0
  | ⟨_, _, v⟩ :: l => each + value_weight each leaf v + weight each leaf l

end

/-- The items there are, at every level. -/
def items (l : List Item) : ℕ := weight 1 (fun _ => 0) l

def octets_of_value : ItemValue → ℕ
  | .Bytes v => v.length
  | _ => 0

/-- The opaque octets the items own, at every level. -/
def owned (l : List Item) : ℕ := weight 0 octets_of_value l

theorem weight_cons (each : ℕ) (leaf : ItemValue → ℕ) (it : Item) (l : List Item) :
    weight each leaf (it :: l) = each + value_weight each leaf it.value + weight each leaf l := by
  cases it
  rw [weight]

theorem weight_singleton (each : ℕ) (leaf : ItemValue → ℕ) (it : Item) :
    weight each leaf [it] = each + value_weight each leaf it.value := by
  rw [weight_cons, weight, Nat.add_zero]

theorem weight_append (each : ℕ) (leaf : ItemValue → ℕ) (l k : List Item) :
    weight each leaf (l ++ k) = weight each leaf l + weight each leaf k := by
  induction l with
  | nil => rw [List.nil_append, weight, Nat.zero_add]
  | cons it l ih =>
    rw [List.cons_append, weight_cons, weight_cons, ih]
    omega

/-! ## Fields -/

/-- A field's value holds no items. -/
theorem items_value_of (e : Bytes) (f : FieldDesc) (b : Budget) :
    value_weight 1 (fun _ => 0) (value_of e f b).1 = 0 ∧ (value_of e f b).2.items = b.items := by
  unfold value_of
  cases f.kind <;> simp [value_weight]

/-- What a field's value owns is taken from the budget. -/
theorem owned_value_of (e : Bytes) (f : FieldDesc) (b : Budget) :
    value_weight 0 octets_of_value (value_of e f b).1 + (value_of e f b).2.bytes = b.bytes := by
  unfold value_of
  cases f.kind with
  | Bytes => simp [value_weight, octets_of_value]
  | VarBytes =>
    simp only [value_weight, octets_of_value, List.length_take]
    omega
  | Uint => simp [value_weight, octets_of_value]
  | LeUint => simp [value_weight, octets_of_value]
  | Flags => simp [value_weight, octets_of_value]
  | Ipv4Addr => simp [value_weight, octets_of_value]
  | Ipv6Addr => simp [value_weight, octets_of_value]
  | MacAddr => simp [value_weight, octets_of_value]

namespace GroupDesc

/-- Each field put out is paid for, and what it owns too. -/
theorem field_items_spent (e : Bytes) (fields : List FieldDesc) (b : Budget) :
    items (field_items e fields b).1 + (field_items e fields b).2.items = b.items ∧
      owned (field_items e fields b).1 + (field_items e fields b).2.bytes = b.bytes ∧
      (field_items e fields b).1.length ≤ fields.length ∧
      items (field_items e fields b).1 = (field_items e fields b).1.length := by
  induction fields generalizing b with
  | nil => simp [field_items, items, owned, weight]
  | cons f fields ih =>
    -- Without an item left the record is cut off here.
    by_cases hitems : b.items = 0
    · rw [field_items, Budget.spend_item, if_pos hitems]
      simp [items, owned, weight]
    · rw [field_items, Budget.spend_item, if_neg hitems]
      dsimp only
      have hvalue := items_value_of e f { b with items := b.items - 1 }
      have howned := owned_value_of e f { b with items := b.items - 1 }
      obtain ⟨hrest, hbytes, hlen, hcount⟩ := ih (value_of e f { b with items := b.items - 1 }).2
      unfold items at hrest hcount ⊢
      unfold owned at hbytes ⊢
      simp only [weight_cons, hvalue.1, List.length_cons]
      rw [hvalue.2] at hrest
      dsimp only at hrest howned hvalue
      omega

end GroupDesc

/-! ## Levels -/

/-- What a walk over the groups at a level needs, fails at, and leaves unaccounted for. -/
class Nested (Sub : Type) extends Level Sub where
  /-- The group's numbers are `usize`. -/
  fits : Sub → Prop
  /-- The walk as the code runs it. -/
  walk_checked : Sub → Bytes → Budget → Option (List Item × Budget)
  /-- No turn of the walk overflows. -/
  Clear : Sub → Bytes → Budget → Prop
  /-- Nested groups put out with nothing left to pay for them. -/
  unpaid : Sub → Bytes → Budget → ℕ
  /-- Items paid for with none put out. -/
  idle : Sub → Bytes → Budget → ℕ
  checked_of_clear : ∀ {s rec b}, fits s → rec.length < 2 ^ 63 → Clear s rec b →
    walk_checked s rec b = some (walk_in s rec b)
  checked_of_not_clear : ∀ {s rec b}, fits s → rec.length < 2 ^ 63 → ¬Clear s rec b →
    walk_checked s rec b = none
  items_eq : ∀ s rec b,
    items (walk_in s rec b).1 + idle s rec b + (walk_in s rec b).2.items = b.items + unpaid s rec b
  spent_out : ∀ {s rec b}, 0 < unpaid s rec b → (walk_in s rec b).2.items = 0
  owned_eq : ∀ s rec b, owned (walk_in s rec b).1 + (walk_in s rec b).2.bytes = b.bytes

instance : Nested Empty where
  fits := nofun
  walk_checked := nofun
  Clear := nofun
  unpaid := nofun
  idle := nofun
  checked_of_clear := fun {s} => nomatch s
  checked_of_not_clear := fun {s} => nomatch s
  items_eq := nofun
  spent_out := fun {s} => nomatch s
  owned_eq := nofun

namespace GroupDesc

variable {Sub : Type} (g : GroupDesc Sub)

/-- The values of an element's own fields. -/
def values (e : Bytes) (b : Budget) : List Item × Budget :=
  field_items e (g.fields.filter fun f => f.is_active e) b

/-- Where the loop goes on, the padded width and the sum checked. -/
def next_checked (i total : ℕ) : Option ℕ := do
  let stride ← fit 64 (g.stride total)
  add i stride

section

variable [Nested Sub]

/-- `element`, its nested walk checked. -/
def element_checked (e : Bytes) (idx : ℕ) (b : Budget) : Option (Item × Budget) :=
  match g.nested with
  | none => some (g.element e idx b)
  | some n => do
    let inner ← Nested.walk_checked n e (g.values e b).2
    some (⟨g.name, idx, .Items ((g.values e b).1 ++ [⟨Level.name n, 0, .Items inner.1⟩])⟩,
      inner.2.spend_item.getD inner.2)

def ElementClear (e : Bytes) (b : Budget) : Prop :=
  match g.nested with
  | none => True
  | some n => Nested.Clear n e (g.values e b).2

def element_unpaid (e : Bytes) (b : Budget) : ℕ :=
  match g.nested with
  | none => 0
  | some n =>
    Nested.unpaid n e (g.values e b).2 +
      if (Level.walk_in n e (g.values e b).2).2.items = 0 then 1 else 0

def element_idle (e : Bytes) (b : Budget) : ℕ :=
  match g.nested with
  | none => if g.is_scalar_list ∧ (g.values e b).1 ≠ [] then 1 else 0
  | some n => Nested.idle n e (g.values e b).2

/-- The loop of `walk_in` as the code runs it. -/
def visit_checked (want : Option ℕ) (region : Bytes) : ℕ → ℕ → ℕ → Budget → Option (List Visit × Budget)
  | 0, _, _, b => some ([], b)
  | n + 1, i, idx, b => do
    match ← g.turn_checked want region i idx b with
    | .stop b => some ([], b)
    | .go octets b => do
      let it ← g.element_checked octets idx b
      let i' ← g.next_checked i octets.length
      let more ← visit_checked want region n i' (idx + 1) it.2
      some (⟨i, octets, it.1⟩ :: more.1, more.2)

/-- No turn of the loop overflows, nor one of the walks in its elements. -/
def VisitClear (want : Option ℕ) (region : Bytes) : ℕ → ℕ → ℕ → Budget → Prop
  | 0, _, _, _ => True
  | n + 1, i, idx, b =>
    g.TurnClear want region i idx b ∧
      match g.turn want region i idx b with
      | .stop _ => True
      | .go octets b =>
        g.ElementClear octets b ∧
          VisitClear want region n (i + g.stride octets.length) (idx + 1) (g.element octets idx b).2

def visit_unpaid (want : Option ℕ) (region : Bytes) : ℕ → ℕ → ℕ → Budget → ℕ
  | 0, _, _, _ => 0
  | n + 1, i, idx, b =>
    match g.turn want region i idx b with
    | .stop _ => 0
    | .go octets b =>
      g.element_unpaid octets b +
        visit_unpaid want region n (i + g.stride octets.length) (idx + 1) (g.element octets idx b).2

def visit_idle (want : Option ℕ) (region : Bytes) : ℕ → ℕ → ℕ → Budget → ℕ
  | 0, _, _, _ => 0
  | n + 1, i, idx, b =>
    match g.turn want region i idx b with
    | .stop b' => b.items - b'.items
    | .go octets b =>
      g.element_idle octets b +
        visit_idle want region n (i + g.stride octets.length) (idx + 1) (g.element octets idx b).2

end

/-- The group's numbers are `usize`, and those of the groups in it. -/
def Fits [Nested Sub] : Prop := g.align < 2 ^ 64 ∧ ∀ n ∈ g.nested, Nested.fits n

/-! ## Elements -/

variable {g}

theorem scalar_of_nested {n : Sub} (h : g.nested = some n) : g.is_scalar_list = false := by
  unfold is_scalar_list
  rw [h]
  simp

theorem length_values (h : g.is_scalar_list = true) (e : Bytes) (b : Budget) :
    (g.values e b).1.length ≤ 1 := by
  unfold is_scalar_list at h
  rw [Bool.and_eq_true, beq_iff_eq] at h
  have hlen := (field_items_spent e (g.fields.filter fun f => f.is_active e) b).2.2.1
  have hfilter := List.length_filter_le (fun f => f.is_active e) g.fields
  unfold values
  omega

/-- An element's padded width is no less than the alignment, and no sum of it overflows: past the first
element the alignment is no more than the region. -/
theorem next_checked_eq {region : Bytes} (halign : g.align < 2 ^ 64) (hlen : region.length < 2 ^ 63) {i total : ℕ}
    (hi : i = 0 ∨ g.align ≤ i) (hpos : 0 < total) (hin : i + total ≤ region.length) :
    g.next_checked i total = some (i + g.stride total) ∧ g.align ≤ i + g.stride total := by
  have hdiv := Nat.div_mul_le_self (total + max g.align 1 - 1) (max g.align 1)
  have hone : 1 ≤ (total + max g.align 1 - 1) / max g.align 1 :=
    (Nat.le_div_iff_mul_le (by omega)).2 (by omega)
  have hge : 1 * max g.align 1 ≤ g.stride total := Nat.mul_le_mul_right _ hone
  have hstride : g.stride total ≤ total + max g.align 1 - 1 := hdiv
  have hfit : i + g.stride total < 2 ^ 64 := by
    by_cases hwide : total ≤ max g.align 1
    · -- one step of the alignment holds the whole element
      have hquot : (total + max g.align 1 - 1) / max g.align 1 < 2 :=
        (Nat.div_lt_iff_lt_mul (by omega)).2 (by omega)
      have hle : g.stride total ≤ 1 * max g.align 1 := Nat.mul_le_mul_right _ (by omega)
      omega
    · omega
  constructor
  · unfold next_checked
    rw [fit_bind (by omega), add, fit, if_pos hfit]
  · omega

/-- A region is within its record. -/
theorem length_region_le {rec : Bytes} : (g.region rec).length ≤ rec.length := by
  unfold region rest
  split
  · rw [List.length_take, List.length_drop]
    omega
  · rw [List.length_drop]
    omega

section

variable [Nested Sub]

theorem element_of_nested {n : Sub} (h : g.nested = some n) (e : Bytes) (idx : ℕ) (b : Budget) :
    g.element e idx b =
      (⟨g.name, idx, .Items ((g.values e b).1 ++
          [⟨Level.name n, 0, .Items (Level.walk_in n e (g.values e b).2).1⟩])⟩,
        (Level.walk_in n e (g.values e b).2).2.spend_item.getD (Level.walk_in n e (g.values e b).2).2) := by
  unfold element
  rw [h, scalar_of_nested h]
  rfl

/-- An element is its values, or its only value in a list of single ones. -/
theorem element_of_flat (h : g.nested = none) (e : Bytes) (idx : ℕ) (b : Budget) :
    (g.element e idx b).2 = (g.values e b).2 ∧
      ((g.is_scalar_list = true ∧ ∃ one, (g.values e b).1 = [one] ∧
          (g.element e idx b).1 = { one with code := idx }) ∨
        ¬(g.is_scalar_list = true ∧ (g.values e b).1 ≠ []) ∧
          (g.element e idx b).1 = ⟨g.name, idx, .Items (g.values e b).1⟩) := by
  unfold element
  rw [h]
  dsimp only
  -- A scalar list has one value an element, which takes the element's number.
  by_cases hscalar : g.is_scalar_list = true
  · have hlen := length_values hscalar e b
    rw [if_pos hscalar]
    cases hvals : (g.values e b).1 with
    | nil =>
      unfold values at hvals
      rw [hvals]
      exact ⟨rfl, .inr ⟨by simp, rfl⟩⟩
    | cons one rest =>
      rw [hvals, List.length_cons] at hlen
      have hrest : rest = [] := List.length_eq_zero_iff.1 (by omega)
      rw [hrest] at hvals ⊢
      unfold values at hvals
      rw [hvals]
      exact ⟨rfl, .inl ⟨hscalar, one, rfl, rfl⟩⟩
  · rw [if_neg hscalar]
    exact ⟨rfl, .inr ⟨fun hboth => hscalar hboth.1, rfl⟩⟩

/-- **An element's account**: itself, what it holds and what it leaves, against what there was. -/
theorem element_items (e : Bytes) (idx : ℕ) (b : Budget) :
    items [(g.element e idx b).1] + g.element_idle e b + (g.element e idx b).2.items =
      1 + b.items + g.element_unpaid e b := by
  -- The element's own fields are paid for item by item.
  obtain ⟨hspent, -, -, hcount⟩ := field_items_spent e (g.fields.filter fun f => f.is_active e) b
  change items (g.values e b).1 + (g.values e b).2.items = b.items at hspent
  change items (g.values e b).1 = (g.values e b).1.length at hcount
  unfold element_idle element_unpaid
  cases hnested : g.nested with
  -- Without a nested walk the item is the scalar or the list of what was read.
  | none =>
    obtain ⟨hbudget, hitem⟩ := element_of_flat hnested e idx b
    rw [hbudget]
    dsimp only
    rcases hitem with ⟨hscalar, one, hone, hval⟩ | ⟨hnot, hval⟩
    · rw [hone] at hspent hcount ⊢
      rw [if_pos ⟨hscalar, List.cons_ne_nil _ _⟩, hval]
      unfold items at hspent hcount ⊢
      rw [weight_cons] at hspent hcount ⊢
      rw [List.length_singleton] at hcount
      dsimp only
      omega
    · rw [if_neg hnot, hval]
      unfold items at hspent ⊢
      rw [weight_cons]
      dsimp only
      rw [value_weight, weight]
      omega
  -- With one, the inner ledger is added; only a spent budget leaves the element itself unpaid.
  | some n =>
    have hinner := Nested.items_eq n e (g.values e b).2
    rw [element_of_nested hnested]
    unfold items at hspent hinner ⊢
    simp only [value_weight, weight_append, weight]
    by_cases hout : (Level.walk_in n e (g.values e b).2).2.items = 0
    · rw [if_pos hout, Budget.spend_item, if_pos hout, Option.getD_none]
      omega
    · rw [if_neg hout, Budget.spend_item, if_neg hout, Option.getD_some]
      dsimp only
      omega

/-- An element that goes unpaid has spent the last of the items. -/
theorem element_spent_out {e : Bytes} {b : Budget} (idx : ℕ) (h : 0 < g.element_unpaid e b) :
    (g.element e idx b).2.items = 0 := by
  unfold element_unpaid at h
  cases hnested : g.nested with
  | none =>
    rw [hnested] at h
    cases h
  | some n =>
    rw [hnested] at h
    dsimp only at h
    have hout : (Level.walk_in n e (g.values e b).2).2.items = 0 := by
      by_contra hleft
      rw [if_neg hleft] at h
      exact hleft (Nested.spent_out h)
    rw [element_of_nested hnested, Budget.spend_item, if_pos hout]
    exact hout

/-- The octets an element owns are those the budget lost. -/
theorem element_owned (e : Bytes) (idx : ℕ) (b : Budget) :
    owned [(g.element e idx b).1] + (g.element e idx b).2.bytes = b.bytes := by
  -- The same ledger for the octets.
  obtain ⟨-, hspent, -, -⟩ := field_items_spent e (g.fields.filter fun f => f.is_active e) b
  change owned (g.values e b).1 + (g.values e b).2.bytes = b.bytes at hspent
  cases hnested : g.nested with
  | none =>
    obtain ⟨hbudget, hitem⟩ := element_of_flat hnested e idx b
    rw [hbudget]
    rcases hitem with ⟨-, one, hone, hval⟩ | ⟨-, hval⟩
    · rw [hone] at hspent
      rw [hval]
      unfold owned at hspent ⊢
      rw [weight_cons] at hspent ⊢
      exact hspent
    · rw [hval]
      unfold owned at hspent ⊢
      rw [weight_cons]
      dsimp only
      rw [value_weight, weight]
      omega
  | some n =>
    have hinner := Nested.owned_eq n e (g.values e b).2
    have hbytes : ((Level.walk_in n e (g.values e b).2).2.spend_item.getD
        (Level.walk_in n e (g.values e b).2).2).bytes = (Level.walk_in n e (g.values e b).2).2.bytes := by
      unfold Budget.spend_item
      split <;> rfl
    rw [element_of_nested hnested, hbytes]
    unfold owned at hspent hinner ⊢
    simp only [value_weight, weight_append, weight]
    omega

theorem element_checked_of_clear (hfits : g.Fits) {e : Bytes} (hlen : e.length < 2 ^ 63) {b : Budget}
    (h : g.ElementClear e b) (idx : ℕ) : g.element_checked e idx b = some (g.element e idx b) := by
  unfold ElementClear at h
  unfold element_checked
  cases hnested : g.nested with
  | none => rfl
  | some n =>
    rw [hnested] at h
    dsimp only
    rw [some_bind (Nested.checked_of_clear (hfits.2 n hnested) hlen h), element_of_nested hnested]

/-- One that is not clear overflows. -/
theorem element_checked_of_not_clear (hfits : g.Fits) {e : Bytes} (hlen : e.length < 2 ^ 63)
    {b : Budget} (h : ¬g.ElementClear e b) (idx : ℕ) : g.element_checked e idx b = none := by
  unfold ElementClear at h
  unfold element_checked
  cases hnested : g.nested with
  | none =>
    rw [hnested] at h
    exact absurd trivial h
  | some n =>
    rw [hnested] at h
    dsimp only
    rw [Nested.checked_of_not_clear (hfits.2 n hnested) hlen h]
    rfl

/-! ## The loop -/

variable {want : Option ℕ} {region : Bytes}

/-- The walk is read without overflow where every element it visits is clear. -/
theorem visit_checked_of_clear (hfits : g.Fits) (hlen : region.length < 2 ^ 63) {n i idx : ℕ} {b : Budget}
    (hi : i = 0 ∨ g.align ≤ i) (h : g.VisitClear want region n i idx b) :
    g.visit_checked want region n i idx b = some (g.visit_from want region n i idx b) := by
  induction n generalizing i idx b with
  | zero => rfl
  | succ n ih =>
    rw [VisitClear] at h
    obtain ⟨hturn, hrest⟩ := h
    rw [visit_checked, some_bind (turn_checked_of_clear hlen hturn)]
    cases hgo : g.turn want region i idx b with
    | stop b' => rw [visit_from_of_stop hgo]
    | go octets b' =>
      rw [hgo] at hrest
      obtain ⟨-, -, hpos, hin, -⟩ := turn_go hgo
      obtain ⟨hnext, halign⟩ := next_checked_eq hfits.1 hlen hi hpos hin
      dsimp only at hrest ⊢
      rw [some_bind (element_checked_of_clear hfits (by omega) hrest.1 idx), some_bind hnext,
        some_bind (ih (.inr halign) hrest.2), visit_from_of_go hgo]

/-- It overflows where one is not; the first such element is met after clear ones only. -/
theorem visit_checked_of_not_clear (hfits : g.Fits) (hlen : region.length < 2 ^ 63) {n i idx : ℕ}
    {b : Budget} (hi : i = 0 ∨ g.align ≤ i) (h : ¬g.VisitClear want region n i idx b) :
    g.visit_checked want region n i idx b = none := by
  induction n generalizing i idx b with
  | zero => exact absurd trivial h
  | succ n ih =>
    rw [visit_checked]
    -- Either this turn overflows, or its element does, or a later turn.
    by_cases hturn : g.TurnClear want region i idx b
    · rw [some_bind (turn_checked_of_clear hlen hturn)]
      rw [VisitClear, and_iff_right hturn] at h
      cases hgo : g.turn want region i idx b with
      | stop b' =>
        rw [hgo] at h
        exact absurd trivial h
      | go octets b' =>
        rw [hgo] at h
        obtain ⟨-, -, hpos, hin, -⟩ := turn_go hgo
        obtain ⟨hnext, halign⟩ := next_checked_eq hfits.1 hlen hi hpos hin
        dsimp only at h ⊢
        by_cases helement : g.ElementClear octets b'
        · rw [and_iff_right helement] at h
          rw [some_bind (element_checked_of_clear hfits (by omega) helement idx), some_bind hnext,
            ih (.inr halign) h]
          rfl
        · rw [element_checked_of_not_clear hfits (by omega) helement idx]
          rfl
    · rw [turn_checked_of_not_clear hlen hturn]
      rfl

/-- **A loop's account.** -/
theorem visit_items (n i idx : ℕ) (b : Budget) :
    items ((g.visit_from want region n i idx b).1.map Visit.item) + g.visit_idle want region n i idx b +
        (g.visit_from want region n i idx b).2.items =
      b.items + g.visit_unpaid want region n i idx b := by
  -- On the fuel. A turn that stops pays for at most the item it tried; any other pays for its
  -- element.
  induction n generalizing i idx b with
  | zero => simp [visit_from, visit_idle, visit_unpaid, items, weight]
  | succ n ih =>
    rw [visit_idle, visit_unpaid]
    cases hturn : g.turn want region i idx b with
    | stop b' =>
      obtain ⟨hle, -⟩ := turn_stop hturn
      rw [visit_from_of_stop hturn]
      simp only [List.map_nil, items, weight]
      omega
    | go octets b' =>
      obtain ⟨hitems, hspent, -⟩ := turn_go hturn
      have helement := element_items (g := g) octets idx b'
      have hrest := ih (i + g.stride octets.length) (idx + 1) (g.element octets idx b').2
      have hleft : b'.items = b.items - 1 := by rw [hspent]
      rw [visit_from_of_go hturn]
      unfold items at helement hrest ⊢
      rw [weight_singleton] at helement
      rw [List.map_cons, weight_cons]
      dsimp only
      omega

/-- A walk with anything unpaid has spent the last of the items. -/
theorem visit_spent_out {n i idx : ℕ} {b : Budget} (h : 0 < g.visit_unpaid want region n i idx b) :
    (g.visit_from want region n i idx b).2.items = 0 := by
  induction n generalizing i idx b with
  | zero => cases h
  | succ n ih =>
    rw [visit_unpaid] at h
    cases hturn : g.turn want region i idx b with
    | stop b' =>
      rw [hturn] at h
      cases h
    | go octets b' =>
      rw [hturn] at h
      dsimp only at h
      rw [visit_from_of_go hturn]
      by_cases hlater : 0 < g.visit_unpaid want region n (i + g.stride octets.length) (idx + 1)
          (g.element octets idx b').2
      · exact ih hlater
      · -- it was this element's, and nothing is left for those behind it
        have hout := element_spent_out (g := g) (e := octets) (b := b') idx (by omega)
        have hrest := @visit_items Sub g _ want region n
          (i + g.stride octets.length) (idx + 1) (g.element octets idx b').2
        dsimp only
        omega

/-- The octets the visits own are those the budget lost. -/
theorem visit_owned (n i idx : ℕ) (b : Budget) :
    owned ((g.visit_from want region n i idx b).1.map Visit.item) +
      (g.visit_from want region n i idx b).2.bytes = b.bytes := by
  induction n generalizing i idx b with
  | zero => simp [visit_from, owned, weight]
  | succ n ih =>
    -- A turn that stops owns nothing; any other owns what its element owns.
    cases hturn : g.turn want region i idx b with
    | stop b' =>
      obtain ⟨-, hbytes⟩ := turn_stop hturn
      rw [visit_from_of_stop hturn]
      simp only [List.map_nil, owned, weight]
      omega
    | go octets b' =>
      obtain ⟨-, hspent, -⟩ := turn_go hturn
      have helement := element_owned (g := g) octets idx b'
      have hrest := ih (i + g.stride octets.length) (idx + 1) (g.element octets idx b').2
      have hbytes : b'.bytes = b.bytes := by rw [hspent]
      rw [visit_from_of_go hturn]
      unfold owned at helement hrest ⊢
      rw [weight_singleton] at helement
      rw [List.map_cons, weight_cons]
      dsimp only
      omega

/-- The octets a walk's elements occupy, with their padding. -/
def occupied (g : GroupDesc Sub) (visits : List Visit) : ℕ :=
  (visits.map fun v => g.stride v.octets.length).sum

/-- A budget only shrinks, so one that is left over was never used up. -/
theorem items_left {n i idx : ℕ} {b : Budget} (h : 0 < (g.visit_from want region n i idx b).2.items) :
    0 < b.items := by
  have haccount := @visit_items Sub g _ want region n i idx b
  have hpaid : ¬0 < g.visit_unpaid want region n i idx b := by
    intro hunpaid
    rw [visit_spent_out hunpaid] at h
    cases h
  omega

/-- **Where items are left over, `region_len` counts what the walk does.** -/
theorem measure_from_visits {n i idx : ℕ} {b : Budget}
    (h : 0 < (g.visit_from want region n i idx b).2.items) :
    g.measure_from want region n i idx =
      (i + g.occupied (g.visit_from want region n i idx b).1,
        idx + (g.visit_from want region n i idx b).1.length) := by
  induction n generalizing i idx b with
  | zero => simp [measure_from, visit_from, occupied]
  | succ n ih =>
    cases hturn : g.turn want region i idx b with
    | stop b' =>
      rw [visit_from_of_stop hturn] at h ⊢
      rw [measure_from_of_stop hturn h]
      simp [occupied]
    | go octets b' =>
      rw [visit_from_of_go hturn] at h ⊢
      rw [measure_from_of_go hturn, ih h]
      simp only [occupied, List.map_cons, List.sum_cons, List.length_cons, Prod.mk.injEq]
      omega

end

end GroupDesc

/-! ## Whole walks -/

namespace GroupDesc

variable {Sub : Type} [Nested Sub] (g : GroupDesc Sub)

/-- `walk_in` as the code runs it. -/
def walk_in_checked (rec : Bytes) (b : Budget) : Option (List Item × Budget) :=
  if g.applies rec then
    (g.visit_checked (g.wanted rec) (g.region rec) MAX_ELEMENTS 0 0 b).map fun r =>
      (r.1.map Visit.item, r.2)
  else some ([], b)

/-- No turn of a walk overflows: every element it comes to starts and ends below `2 ^ 64`. -/
def Clear (rec : Bytes) (b : Budget) : Prop :=
  g.applies rec = true → g.VisitClear (g.wanted rec) (g.region rec) MAX_ELEMENTS 0 0 b

def unpaid (rec : Bytes) (b : Budget) : ℕ :=
  if g.applies rec then g.visit_unpaid (g.wanted rec) (g.region rec) MAX_ELEMENTS 0 0 b else 0

def idle (rec : Bytes) (b : Budget) : ℕ :=
  if g.applies rec then g.visit_idle (g.wanted rec) (g.region rec) MAX_ELEMENTS 0 0 b else 0

variable {g} {rec : Bytes} {b : Budget}

theorem walk_in_of_applies (h : g.applies rec = true) :
    g.walk_in rec b = ((g.visit_from (g.wanted rec) (g.region rec) MAX_ELEMENTS 0 0 b).1.map Visit.item,
      (g.visit_from (g.wanted rec) (g.region rec) MAX_ELEMENTS 0 0 b).2) := by
  unfold walk_in visits
  rw [if_pos h]

theorem walk_in_of_not_applies (h : ¬g.applies rec = true) : g.walk_in rec b = ([], b) := by
  unfold walk_in visits
  rw [if_neg h]
  rfl

end GroupDesc

/-- Groups that nest groups keep the account of those they nest. -/
instance {Sub : Type} [Nested Sub] : Nested (GroupDesc Sub) where
  fits g := g.Fits
  walk_checked g := g.walk_in_checked
  Clear g := g.Clear
  unpaid g := g.unpaid
  idle g := g.idle
  checked_of_clear := by
    intro g rec b hfits hlen hclear
    have hregion : (g.region rec).length ≤ rec.length := GroupDesc.length_region_le
    unfold GroupDesc.walk_in_checked
    by_cases happlies : g.applies rec = true
    · rw [if_pos happlies, GroupDesc.visit_checked_of_clear hfits (by omega) (.inl rfl) (hclear happlies)]
      exact congrArg some (GroupDesc.walk_in_of_applies happlies).symm
    · rw [if_neg happlies]
      exact congrArg some (GroupDesc.walk_in_of_not_applies happlies).symm
  checked_of_not_clear := by
    intro g rec b hfits hlen hclear
    have hregion : (g.region rec).length ≤ rec.length := GroupDesc.length_region_le
    unfold GroupDesc.Clear at hclear
    push Not at hclear
    unfold GroupDesc.walk_in_checked
    rw [if_pos hclear.1, GroupDesc.visit_checked_of_not_clear hfits (by omega) (.inl rfl) hclear.2]
    rfl
  items_eq := by
    intro g rec b
    change items (g.walk_in rec b).1 + g.idle rec b + (g.walk_in rec b).2.items = b.items + g.unpaid rec b
    unfold GroupDesc.idle GroupDesc.unpaid
    by_cases happlies : g.applies rec = true
    · rw [if_pos happlies, if_pos happlies, GroupDesc.walk_in_of_applies happlies]
      exact GroupDesc.visit_items _ _ _ _
    · rw [if_neg happlies, if_neg happlies, GroupDesc.walk_in_of_not_applies happlies]
      simp [items, weight]
  spent_out := by
    intro g rec b hunpaid
    unfold GroupDesc.unpaid at hunpaid
    by_cases happlies : g.applies rec = true
    · rw [if_pos happlies] at hunpaid
      change (g.walk_in rec b).2.items = 0
      rw [GroupDesc.walk_in_of_applies happlies]
      exact GroupDesc.visit_spent_out hunpaid
    · rw [if_neg happlies] at hunpaid
      cases hunpaid
  owned_eq := by
    intro g rec b
    change owned (g.walk_in rec b).1 + (g.walk_in rec b).2.bytes = b.bytes
    by_cases happlies : g.applies rec = true
    · rw [GroupDesc.walk_in_of_applies happlies]
      exact GroupDesc.visit_owned _ _ _ _
    · rw [GroupDesc.walk_in_of_not_applies happlies]
      simp [owned, weight]

/-! ## The region's own count -/

namespace GroupDesc

variable {Sub : Type} (g : GroupDesc Sub)

/-- The loop of `region_len` as the code runs it: the walk's, with an item always at hand. -/
def measure_checked (want : Option ℕ) (region : Bytes) : ℕ → ℕ → ℕ → Option (ℕ × ℕ)
  | 0, i, idx => some (i, idx)
  | n + 1, i, idx => do
    match ← g.turn_checked want region i idx ⟨1, 0⟩ with
    | .stop _ => some (i, idx)
    | .go octets _ => do
      let i' ← g.next_checked i octets.length
      measure_checked want region n i' (idx + 1)

/-- `region_len`, with the elements it counted. -/
def region_len_checked (rec : Bytes) : Option (ℕ × ℕ) :=
  if g.applies rec then g.measure_checked (g.wanted rec) (g.region rec) MAX_ELEMENTS 0 0
  else some (0, 0)

/-- No turn of that loop overflows. The budget of one item is only there to be looked at: the loop of
`region_len` spends none. -/
def MeasureClear (want : Option ℕ) (region : Bytes) : ℕ → ℕ → ℕ → Prop
  | 0, _, _ => True
  | n + 1, i, idx =>
    g.TurnClear want region i idx ⟨1, 0⟩ ∧
      match g.turn want region i idx ⟨1, 0⟩ with
      | .stop _ => True
      | .go octets _ => MeasureClear want region n (i + g.stride octets.length) (idx + 1)

variable {g} {want : Option ℕ} {region : Bytes} {n i idx : ℕ} {b b' : Budget}

/-- A turn that stops with one item at hand stops `region_len` too: what it stopped for was not the
budget. -/
theorem measure_from_of_halt (h : g.turn want region i idx ⟨1, 0⟩ = .stop b') :
    g.measure_from want region (n + 1) i idx = (i, idx) := by
  unfold turn Budget.spend_item at h
  rw [measure_from]
  by_cases hi : i < region.length
  · rw [if_pos hi] at h ⊢
    cases hwant : want.any (· ≤ idx) with
    | true => rw [if_pos rfl]
    | false =>
      rw [hwant, if_neg Bool.false_ne_true, if_neg Nat.one_ne_zero] at h
      rw [if_neg Bool.false_ne_true]
      dsimp only at h ⊢
      split at h
      · rename_i hstop
        rw [if_pos hstop]
      · cases h
  · rw [if_neg hi]

/-- **Measuring fails exactly where one of its sums does not fit**, and else comes to what it comes to
over the numbers. -/
theorem measure_checked_of_clear (halign : g.align < 2 ^ 64) (hlen : region.length < 2 ^ 63)
    (hi : i = 0 ∨ g.align ≤ i) (h : g.MeasureClear want region n i idx) :
    g.measure_checked want region n i idx = some (g.measure_from want region n i idx) := by
  induction n generalizing i idx with
  | zero => rfl
  | succ n ih =>
    rw [MeasureClear] at h
    obtain ⟨hturn, hrest⟩ := h
    rw [measure_checked, some_bind (turn_checked_of_clear hlen hturn)]
    cases hgo : g.turn want region i idx ⟨1, 0⟩ with
    | stop b' => rw [measure_from_of_halt hgo]
    | go octets b' =>
      rw [hgo] at hrest
      obtain ⟨-, -, hpos, hin, -⟩ := turn_go hgo
      obtain ⟨hnext, hnext_align⟩ := next_checked_eq halign hlen hi hpos hin
      dsimp only
      rw [some_bind hnext, measure_from_of_go hgo]
      exact ih (.inr hnext_align) hrest

/-- Measuring overflows where a turn is not clear. -/
theorem measure_checked_of_not_clear (halign : g.align < 2 ^ 64) (hlen : region.length < 2 ^ 63)
    (hi : i = 0 ∨ g.align ≤ i) (h : ¬g.MeasureClear want region n i idx) :
    g.measure_checked want region n i idx = none := by
  induction n generalizing i idx with
  | zero => exact absurd trivial h
  | succ n ih =>
    rw [measure_checked]
    -- The turn overflows, or the walk is not clear behind it.
    by_cases hturn : g.TurnClear want region i idx ⟨1, 0⟩
    · rw [MeasureClear, and_iff_right hturn] at h
      rw [some_bind (turn_checked_of_clear hlen hturn)]
      cases hgo : g.turn want region i idx ⟨1, 0⟩ with
      | stop b' =>
        rw [hgo] at h
        exact absurd trivial h
      | go octets b' =>
        rw [hgo] at h
        obtain ⟨-, -, hpos, hin, -⟩ := turn_go hgo
        obtain ⟨hnext, hnext_align⟩ := next_checked_eq halign hlen hi hpos hin
        dsimp only
        rw [some_bind hnext]
        exact ih (.inr hnext_align) h
    · rw [turn_checked_of_not_clear hlen hturn]
      rfl

/-- With an item at hand the budget does not matter to a turn. -/
theorem turn_of_items (hitems : 0 < b.items) :
    (∀ octets, (∃ b', g.turn want region i idx b = .go octets b') ↔
      ∃ b', g.turn want region i idx ⟨1, 0⟩ = .go octets b') ∧
    (g.TurnClear want region i idx b ↔ g.TurnClear want region i idx ⟨1, 0⟩) := by
  constructor
  · intro octets
    unfold turn Budget.spend_item
    rw [if_neg (by omega : ¬b.items = 0), if_neg Nat.one_ne_zero]
    dsimp only
    split
    · split
      · simp
      · split
        · simp
        · simp
    · simp
  · simp only [TurnClear, hitems, Nat.one_pos, forall_true_left]

/-- With items left, measuring meets the very elements the walk visits, so it does not overflow
either. -/
theorem measure_checked_visits [Nested Sub] (hfits : g.Fits) (hlen : region.length < 2 ^ 63)
    (hi : i = 0 ∨ g.align ≤ i) (hclear : g.VisitClear want region n i idx b)
    (h : 0 < (g.visit_from want region n i idx b).2.items) :
    g.measure_checked want region n i idx = some (g.measure_from want region n i idx) := by
  -- By the elements; with items left at the end there were items left at each turn.
  induction n generalizing i idx b with
  | zero => rfl
  | succ n ih =>
    rw [VisitClear] at hclear
    obtain ⟨hturn, hrest⟩ := hclear
    have hitems := items_left h
    have hown := turn_checked_of_clear hlen ((turn_of_items hitems).2.1 hturn)
    rw [measure_checked, some_bind hown]
    cases hgo : g.turn want region i idx b with
    | stop b' =>
      rw [visit_from_of_stop hgo] at h
      rw [measure_from_of_stop hgo h]
      cases halone : g.turn want region i idx ⟨1, 0⟩ with
      | stop b'' => rfl
      | go octets b'' =>
        obtain ⟨other, hother⟩ := ((turn_of_items hitems).1 octets).2 ⟨b'', halone⟩
        rw [hgo] at hother
        cases hother
    | go octets b' =>
      rw [hgo] at hrest
      obtain ⟨b'', halone⟩ := ((turn_of_items hitems).1 octets).1 ⟨b', hgo⟩
      obtain ⟨-, -, hpos, hin, -⟩ := turn_go hgo
      obtain ⟨hnext, halign⟩ := next_checked_eq hfits.1 hlen hi hpos hin
      rw [visit_from_of_go hgo] at h
      rw [measure_from_of_go hgo, halone]
      dsimp only
      rw [some_bind hnext]
      exact ih (.inr halign) hrest.2 h

end GroupDesc

/-! ## Every depth -/

/-- What groups of `n` levels below the top one nest. -/
def Nest : ℕ → Type
  | 0 => Empty
  | n + 1 => GroupDesc (Nest n)

instance instNestedNest : (n : ℕ) → Nested (Nest n)
  | 0 => inferInstanceAs (Nested Empty)
  | n + 1 =>
    have := instNestedNest n
    inferInstanceAs (Nested (GroupDesc (Nest n)))

/-- A walk that stays bounded and agrees with `region_len`. -/
structure Bounded {n : ℕ} (g : GroupDesc (Nest n)) (rec : Bytes) : Prop where
  /-- It ends, and nothing in it overflows or slices out of bounds. -/
  runs : g.walk_in_checked rec .new = some (g.walk_in rec .new)
  items_le : items (g.walk rec) ≤ MAX_ITEMS
  owned_le : owned (g.walk rec) ≤ MAX_OWNED_BYTES
  /-- With items left over, its elements and the octets they occupy are those of `region_len`. -/
  agrees : 0 < (g.walk_in rec .new).2.items →
    g.region_len_checked rec = some (g.occupied (g.visits rec .new).1, (g.walk rec).length) ∧
      g.region_len rec = g.occupied (g.visits rec .new).1

section

variable {n : ℕ} {g : GroupDesc (Nest n)} {rec : Bytes}

/-- **More items than `MAX_ITEMS` are put out exactly where more went unpaid than were paid for
nothing.** -/
theorem items_le_iff : items (g.walk rec) ≤ MAX_ITEMS ↔ g.unpaid rec .new ≤ g.idle rec .new := by
  have haccount := Nested.items_eq g rec .new
  change items (g.walk rec) + g.idle rec .new + (g.walk_in rec .new).2.items =
    MAX_ITEMS + g.unpaid rec .new at haccount
  by_cases hunpaid : 0 < g.unpaid rec .new
  · have hout : (g.walk_in rec .new).2.items = 0 :=
      @Nested.spent_out (GroupDesc (Nest n)) _ g rec .new hunpaid
    omega
  · omega

/-- A walk that leaves items over put out no group it had nothing to pay for with. -/
theorem unpaid_of_left (h : 0 < (g.walk_in rec .new).2.items) : g.unpaid rec .new = 0 := by
  by_contra hunpaid
  have hout : (g.walk_in rec .new).2.items = 0 :=
    @Nested.spent_out (GroupDesc (Nest n)) _ g rec .new (Nat.pos_of_ne_zero hunpaid)
  omega

/-- Nor does a walk over a group that nests nothing, whatever it leaves over. -/
theorem unpaid_of_flat (h : g.nested = none) : g.unpaid rec .new = 0 := by
  have hvisits : ∀ (want : Option ℕ) (region : Bytes) (k i idx : ℕ) (b : Budget),
      g.visit_unpaid want region k i idx b = 0 := by
    intro want region k
    induction k with
    | zero => exact fun _ _ _ => rfl
    | succ k ih =>
      intro i idx b
      rw [GroupDesc.visit_unpaid]
      split
      · rfl
      · rw [ih, GroupDesc.element_unpaid, h]
  unfold GroupDesc.unpaid
  rw [hvisits, ite_self]

theorem owned_le_max : owned (g.walk rec) ≤ MAX_OWNED_BYTES := by
  have haccount := Nested.owned_eq g rec .new
  change owned (g.walk rec) + (g.walk_in rec .new).2.bytes = MAX_OWNED_BYTES at haccount
  omega

/-- Then the measured region is the one the walk occupied. -/
theorem agrees_of_clear (hfits : g.Fits) (hlen : rec.length < 2 ^ 63) (hclear : g.Clear rec .new)
    (hleft : 0 < (g.walk_in rec .new).2.items) :
    g.region_len_checked rec = some (g.occupied (g.visits rec .new).1, (g.walk rec).length) ∧
      g.region_len rec = g.occupied (g.visits rec .new).1 := by
  have hregion : (g.region rec).length ≤ rec.length := GroupDesc.length_region_le
  unfold GroupDesc.region_len_checked GroupDesc.region_len GroupDesc.walk
  by_cases happlies : g.applies rec = true
  · rw [GroupDesc.walk_in_of_applies happlies] at hleft ⊢
    have hvisits : g.visits rec .new =
        g.visit_from (g.wanted rec) (g.region rec) MAX_ELEMENTS 0 0 .new := if_pos happlies
    have hcount := GroupDesc.measure_from_visits hleft
    rw [Nat.zero_add, Nat.zero_add] at hcount
    rw [if_pos happlies, if_pos happlies, hvisits,
      GroupDesc.measure_checked_visits hfits (by omega) (.inl rfl) (hclear happlies) hleft, hcount,
      List.length_map]
    exact ⟨rfl, rfl⟩
  · have hvisits : g.visits rec .new = ([], .new) := if_neg happlies
    rw [if_neg happlies, if_neg happlies, hvisits, GroupDesc.walk_in_of_not_applies happlies]
    exact ⟨rfl, rfl⟩

/-- **A walk is bounded exactly where no turn of it overflows and no more nested groups go unpaid than
items were paid for nothing.** A slice has fewer than `2 ^ 63` octets, and the group's numbers are
`usize`. -/
theorem walk_bounded_iff (hfits : g.Fits) (hlen : rec.length < 2 ^ 63) :
    Bounded g rec ↔ g.Clear rec .new ∧ g.unpaid rec .new ≤ g.idle rec .new := by
  constructor
  · intro h
    refine ⟨?_, items_le_iff.1 h.items_le⟩
    by_contra hclear
    have hruns := h.runs
    have hfails : g.walk_in_checked rec .new = none :=
      @Nested.checked_of_not_clear (GroupDesc (Nest n)) _ g rec .new hfits hlen hclear
    rw [hfails] at hruns
    cases hruns
  · rintro ⟨hclear, hpaid⟩
    have hruns : g.walk_in_checked rec .new = some (g.walk_in rec .new) :=
      @Nested.checked_of_clear (GroupDesc (Nest n)) _ g rec .new hfits hlen hclear
    exact ⟨hruns, items_le_iff.2 hpaid, owned_le_max, agrees_of_clear hfits hlen hclear⟩

/-- So a walk is bounded that leaves items over or whose group nests nothing, if no turn of it
overflows. -/
theorem bounded_of_clear (hfits : g.Fits) (hlen : rec.length < 2 ^ 63) (hclear : g.Clear rec .new)
    (h : g.nested = none ∨ 0 < (g.walk_in rec .new).2.items) : Bounded g rec := by
  have hpaid : g.unpaid rec .new = 0 := h.elim unpaid_of_flat unpaid_of_left
  have hruns : g.walk_in_checked rec .new = some (g.walk_in rec .new) :=
    @Nested.checked_of_clear (GroupDesc (Nest n)) _ g rec .new hfits hlen hclear
  exact ⟨hruns, items_le_iff.2 (hpaid.trans_le (Nat.zero_le _)), owned_le_max,
    agrees_of_clear hfits hlen hclear⟩

end

/-! ## Walks that are not bounded -/

/-- Elements whose first eight octets say how wide they are. -/
def self_sized : GroupDesc (Nest 0) where
  name := "rec".toList
  fields := []
  elem := .Computed 0 [⟨0, 64, 1⟩] 0
  extent := .Rest
  start := 0
  align := 1
  nested := none
  when := none

theorem self_sized_fits : self_sized.Fits := ⟨by decide, fun _ hn => absurd hn (by simp [self_sized])⟩

/-- One element of eight octets, and one that says it is as wide as can be. -/
def overwide : Bytes := [0, 0, 0, 0, 0, 0, 0, 8, 0xff, 0xff, 0xff, 0xff, 0xff, 0xff, 0xff, 0xff]

theorem walk_bounded_self_sized : Bounded self_sized (overwide.take 8) := by
  refine (walk_bounded_iff self_sized_fits (by decide)).2 ⟨fun _ => ?_, by decide⟩
  exact ⟨by decide, trivial, by decide, trivial⟩

/-- **The second element starts at octet 8 and claims `2 ^ 64 - 1` more**: their sum does not fit. -/
theorem overwide_not_bounded :
    ¬∀ (n : ℕ) (g : GroupDesc (Nest n)) (rec : Bytes), g.Fits → rec.length < 2 ^ 63 → Bounded g rec := by
  intro h
  have hclear := ((walk_bounded_iff self_sized_fits (by decide)).1
    (h 0 self_sized overwide self_sized_fits (by decide))).1 rfl
  exact absurd hclear.2.2.1 (by decide)

/-- A group of one octet each and no fields. -/
def bare : Nest 1 :=
  GroupDesc.mk "sub".toList [] (.Fixed 1) .Rest 0 1 (none : Option (Nest 0)) none

/-- An element of so many fields that one item is left for the group it nests. -/
def crowded : GroupDesc (Nest 1) where
  name := "rec".toList
  fields := List.replicate 8190 (.uint "x" 0 8 0)
  elem := .Fixed 1
  extent := .Rest
  start := 0
  align := 1
  nested := some bare
  when := none

/-- Integer fields that can all be paid for. -/
theorem field_items_paid (e : Bytes) {fields : List FieldDesc} (hkind : ∀ f ∈ fields, f.kind = .Uint)
    {b : Budget} (h : fields.length ≤ b.items) :
    (GroupDesc.field_items e fields b).2 = { b with items := b.items - fields.length } := by
  induction fields generalizing b with
  | nil => rfl
  | cons f fields ih =>
    rw [List.length_cons] at h
    have hvalue : (value_of e f { b with items := b.items - 1 }).2 = { b with items := b.items - 1 } := by
      unfold value_of
      rw [hkind f List.mem_cons_self]
    rw [GroupDesc.field_items, Budget.spend_item, if_neg (by omega)]
    dsimp only
    rw [hvalue, ih (fun f hf => hkind f (List.mem_cons_of_mem _ hf)) (by dsimp only; omega),
      List.length_cons]
    dsimp only
    congr 1
    omega

/-- One crowded element takes nearly all the items. -/
theorem crowded_values (e : Bytes) (bytes : ℕ) :
    (GroupDesc.values crowded e ⟨8191, bytes⟩).2 = ⟨8191 - 8190, bytes⟩ := by
  have hall : (crowded.fields.filter fun f => f.is_active e) = crowded.fields := by
    apply List.filter_eq_self.2
    intro f hf
    rw [List.eq_of_mem_replicate hf]
    rfl
  have hlen : crowded.fields.length = 8190 := List.length_replicate
  have hkind : ∀ f ∈ crowded.fields, f.kind = .Uint := by
    intro f hf
    rw [List.eq_of_mem_replicate hf]
    rfl
  unfold GroupDesc.values
  rw [hall, field_items_paid e hkind (by rw [hlen]; dsimp only; omega), hlen]

/-- **The nested group's own item is put out though nothing is left**, and the walk is over by one. -/
theorem crowded_over_by_one : ¬Bounded crowded [0] := by
  -- The run of the crowded description, one element of it, evaluated step by step.
  have hgo : crowded.turn none [0] 0 0 .new = .go [0] ⟨8191, MAX_OWNED_BYTES⟩ := rfl
  have hstride : 0 + crowded.stride ([0] : Bytes).length = 1 := rfl
  have hunpaid_rest : ∀ b, crowded.visit_unpaid none [0] 511 1 (0 + 1) b = 0 := fun _ => rfl
  have hidle_rest : ∀ b, crowded.visit_idle none [0] 511 1 (0 + 1) b = 0 := by
    intro b
    exact Nat.sub_self b.items
  have happlies : crowded.applies [0] = true := rfl
  have hwanted : crowded.wanted [0] = none := rfl
  have hregion : crowded.region [0] = [0] := rfl
  have helements : MAX_ELEMENTS = 511 + 1 := rfl
  have hunpaid : crowded.unpaid [0] .new = crowded.visit_unpaid none [0] (511 + 1) 0 0 .new := by
    rw [GroupDesc.unpaid, if_pos happlies, hwanted, hregion, helements]
  have hidle : crowded.idle [0] .new = crowded.visit_idle none [0] (511 + 1) 0 0 .new := by
    rw [GroupDesc.idle, if_pos happlies, hwanted, hregion, helements]
  have hbare_unpaid : Nested.unpaid bare [0] ⟨8191 - 8190, MAX_OWNED_BYTES⟩ +
      (if (Level.walk_in bare [0] ⟨8191 - 8190, MAX_OWNED_BYTES⟩).2.items = 0 then 1 else 0) = 1 := by decide +kernel
  have hbare_idle : Nested.idle bare [0] ⟨8191 - 8190, MAX_OWNED_BYTES⟩ = 0 := by decide +kernel
  have hnested : crowded.nested = some bare := rfl
  rw [GroupDesc.visit_unpaid, hgo] at hunpaid
  dsimp only at hunpaid
  rw [hstride, hunpaid_rest, GroupDesc.element_unpaid, hnested] at hunpaid
  dsimp only at hunpaid
  rw [crowded_values, hbare_unpaid] at hunpaid
  rw [GroupDesc.visit_idle, hgo] at hidle
  dsimp only at hidle
  rw [hstride, hidle_rest, GroupDesc.element_idle, hnested] at hidle
  dsimp only at hidle
  rw [crowded_values, hbare_idle] at hidle
  -- One item too many came out, so the bound fails.
  intro h
  have hpaid := items_le_iff.1 h.items_le
  rw [hunpaid, hidle] at hpaid
  exact absurd hpaid (by decide)

end Wiry.Repeat
