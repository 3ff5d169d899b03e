/-
Where iterating a Python packet gives the product of its fields, `PyPacket.__iter__` of
`python/wiry/_pylayer.py`.

That the walk gives the product where it is `Fresh` is `loop_fresh`. The other direction is a count: a
name makes at most one branch for each element it has, and each branch at most what is left to be made
by then, so that a walk that makes the whole product has lost nothing on the way (`each_full` for one
name, `loop_full` for all of them). A name that is listed twice is no loss but a gain, and the two are
kept apart: `exact_product_iff` says what holds where only one of them is there.
-/
import Mathlib.Tactic.Common
import Wiry.Pylayer.Fresh

set_option autoImplicit false

namespace Wiry.Pylayer

variable {V C : Type} {self : Layer C V} {gens : Gens V}

section
variable {overloads : C → C → Option (Dict V)} {_fix : V → FieldValue V} {payload : Chain C V}

/-! ## A branch that finds less than the first one did -/

theorem remaining_length_le {entries : List (FieldValue V)} {now : Gens V} (hnow : Shrunk now gens) :
    (remaining now entries).length ≤ (remaining gens entries).length := by
  unfold remaining
  induction entries with
  | nil => exact Nat.le_refl _
  | cons e entries ih =>
    rw [List.flatMap_cons, List.flatMap_cons, List.length_append, List.length_append]
    apply Nat.add_le_add _ ih
    cases e with
    | generator id => exact (hnow id).length_le
    | _ => exact Nat.le_refl _

/-- Entries that give as much as they did have lost nothing. -/
theorem eq_of_remaining {entries : List (FieldValue V)} {now : Gens V} (hnow : Shrunk now gens)
    (h : (remaining gens entries).length ≤ (remaining now entries).length) {id : ℕ}
    (hid : .generator id ∈ entries) : now id = gens id := by
  induction entries with
  | nil => exact absurd hid List.not_mem_nil
  | cons e entries ih =>
    have htail : (remaining now entries).length ≤ (remaining gens entries).length := remaining_length_le hnow
    have hhead : (left now e).length ≤ (left gens e).length := by
      cases e with
      | generator id => exact (hnow id).length_le
      | _ => exact Nat.le_refl _
    have hcons : ∀ some : Gens V, (remaining some (e :: entries)).length =
        (left some e).length + (remaining some entries).length := by
      intro some
      unfold remaining
      rw [List.flatMap_cons, List.length_append]
    rw [hcons, hcons] at h
    rcases List.mem_cons.1 hid with rfl | hid
    · rw [left_generator, left_generator] at h hhead
      exact (hnow id).eq_of_length_le (by omega)
    · exact ih (by omega) hid

/-- What `next` takes is one element of what is left, or more of it where its generator object is named
again. -/
theorem next_length {entries rest : List (FieldValue V)} {taken : Gens V} {e : FieldValue V}
    (h : next entries gens = some (e, rest, taken)) :
    (remaining taken rest).length + 1 ≤ (remaining gens entries).length := by
  unfold remaining
  -- By what is taken: a spent generator first, the next of a generator, or a plain value.
  fun_induction next entries gens with
  | case1 => cases h
  | case2 id entries gens hnil ih =>
    rw [List.flatMap_cons, List.length_append]
    exact Nat.le_add_left_of_le (ih h)
  | case3 id entries gens head tail hcons =>
    cases h
    -- the generator may be listed again behind, and is shorter there too
    have htail : (remaining (Function.update gens id tail) entries).length ≤ (remaining gens entries).length :=
      remaining_length_le (Shrunk.take hcons)
    unfold remaining at htail
    rw [List.flatMap_cons, List.flatMap_cons, List.length_append, List.length_append, left, left,
      Function.update_self, hcons, List.length_cons]
    omega
  | case4 head entries gens hplain =>
    cases h
    rw [List.flatMap_cons, List.length_append]
    have hone : (left taken e).length = 1 := by
      cases e with
      | generator id => exact absurd rfl (hplain id)
      | _ => rfl
    omega

/-- Where it takes one element only, no generator object of the entries is named again. -/
theorem next_live {entries rest : List (FieldValue V)} {taken : Gens V} {e : FieldValue V}
    (h : next entries gens = some (e, rest, taken))
    (hlength : (remaining gens entries).length ≤ (remaining taken rest).length + 1)
    (hnodup : (live taken rest).Nodup) :
    (live gens entries).Nodup ∧ ∀ id ∈ live gens entries, id ∈ live taken rest ∨ taken id ≠ gens id := by
  fun_induction next entries gens with
  | case1 => cases h
  | case2 id entries gens hnil ih =>
    rw [live_cons_generator, if_pos hnil]
    apply ih h
    rw [remaining, List.flatMap_cons, left, hnil, List.nil_append] at hlength
    exact hlength
  | case3 id entries gens head tail hcons =>
    cases h
    have hlive : gens id ≠ [] := by
      rw [hcons]
      exact List.cons_ne_nil _ _
    -- the entries after it give as much as they did
    have hsame : ∀ other, .generator other ∈ entries → Function.update gens id tail other = gens other := by
      intro other hother
      apply eq_of_remaining (Shrunk.take hcons) _ hother
      rw [remaining, remaining, List.flatMap_cons, List.flatMap_cons, List.length_append, List.length_append,
        left, left, Function.update_self, hcons, List.length_cons] at hlength
      unfold remaining
      omega
    have hapart : .generator id ∉ entries := by
      intro hmem
      have hid := hsame id hmem
      rw [Function.update_self, hcons] at hid
      exact List.cons_ne_self _ _ hid.symm
    have hrest : live (Function.update gens id tail) entries = live gens entries := live_congr hsame
    have hmem : ∀ other ∈ live gens entries,
        other ∈ live (Function.update gens id tail) (.generator id :: entries) := by
      intro other hother
      rw [live_cons_generator, hrest]
      split
      · exact hother
      · exact List.mem_cons_of_mem _ hother
    rw [live_cons_generator, if_neg hlive]
    refine ⟨List.nodup_cons.2 ⟨fun hid => hapart (mem_live.1 hid).1, ?_⟩, ?_⟩
    · rw [live_cons_generator, hrest] at hnodup
      split at hnodup
      · exact hnodup
      · exact (List.nodup_cons.1 hnodup).2
    · intro other hother
      rcases List.mem_cons.1 hother with rfl | hother
      · refine Or.inr ?_
        rw [Function.update_self, hcons]
        exact (List.cons_ne_self _ _).symm
      · exact Or.inl (hmem other hother)
  | case4 head entries gens hplain =>
    cases h
    rw [live_cons_plain fun id hid => hplain id hid]
    exact ⟨hnodup, fun id hid => Or.inl hid⟩

/-- What `next` passes by has nothing left. -/
theorem next_skips {entries rest : List (FieldValue V)} {taken : Gens V} {e : FieldValue V}
    (h : next entries gens = some (e, rest, taken)) {id : ℕ} (hid : .generator id ∈ entries) :
    .generator id ∈ rest ∨ gens id = [] := by
  fun_induction next entries gens with
  | case1 => cases h
  | case2 other entries gens hnil ih =>
    rcases List.mem_cons.1 hid with hsame | hid
    · cases hsame
      exact Or.inr hnil
    · exact ih h hid
  | case3 other entries gens head tail hcons =>
    cases h
    exact Or.inl hid
  | case4 head entries gens hplain =>
    cases h
    rcases List.mem_cons.1 hid with hsame | hid
    · exact absurd hsame.symm (hplain id)
    · exact Or.inl hid

theorem eq_nil_of_remaining {entries : List (FieldValue V)} (h : remaining gens entries = []) {id : ℕ}
    (hid : .generator id ∈ entries) : gens id = [] := by
  unfold remaining at h
  rw [List.flatMap_eq_nil_iff] at h
  exact h _ hid

/-- And none that is live. -/
theorem live_of_remaining {entries : List (FieldValue V)} (h : remaining gens entries = []) :
    live gens entries = [] := by
  rw [List.eq_nil_iff_forall_not_mem]
  intro id hid
  rw [mem_live] at hid
  exact hid.2 (eq_nil_of_remaining h hid.1)

section Turns

/- One turn of a walk: it gives nothing back, makes at most `most` of what is left, and where it makes
something it leaves nothing of the generator objects further in. -/
variable {body : FieldValue V → Walk C V → Gens V → Walk C V × Gens V} {inner : ℕ → Prop}
  {most : Gens V → ℕ}

/-- Going over a field's values only draws generators further along. -/
theorem each_shrinks (hshrinks : ∀ e w now, Shrunk (body e w now).2 now) (n : ℕ)
    (entries : List (FieldValue V)) (w : Walk C V) (now : Gens V) :
    Shrunk (each body n entries w now).2 now := by
  induction n generalizing entries w now with
  | zero => exact Shrunk.refl now
  | succ n ih =>
    rw [each]
    split
    · exact Shrunk.refl now
    · next e rest taken hnext =>
      exact (ih rest _ _).trans ((hshrinks e w taken).trans (next_some hnext).1)

/-- A walk over the entries to their end leaves nothing of them. -/
theorem each_spent (hshrinks : ∀ e w now, Shrunk (body e w now).2 now) (n : ℕ)
    {entries : List (FieldValue V)} (w : Walk C V) {now : Gens V} (hcount : (remaining now entries).length ≤ n)
    {id : ℕ} (hid : .generator id ∈ entries) : (each body n entries w now).2 id = [] := by
  induction n generalizing entries w now with
  | zero => exact eq_nil_of_remaining (List.length_eq_zero_iff.1 (Nat.le_zero.1 hcount)) hid
  | succ n ih =>
    cases hnext : next entries now with
    | none =>
      rw [each, hnext]
      exact eq_nil_of_remaining (next_eq_none_iff.1 hnext) hid
    | some found =>
      obtain ⟨e, rest, taken⟩ := found
      rcases next_skips hnext hid with hrest | hnil
      · rw [each, hnext]
        have hlength := next_length hnext
        have hle : (remaining (body e w taken).2 rest).length ≤ (remaining taken rest).length :=
          remaining_length_le (hshrinks e w taken)
        exact ih _ (by omega) hrest
      · exact (each_shrinks hshrinks (n + 1) entries w now).eq_nil hnil

/-- Where a walk makes something, one of its turns did. -/
theorem each_drained (hshrinks : ∀ e w now, Shrunk (body e w now).2 now)
    (hdrained : ∀ e w now, w.pkts.length < (body e w now).1.pkts.length →
      ∀ id, inner id → (body e w now).2 id = [])
    (n : ℕ) (entries : List (FieldValue V)) (w : Walk C V) (now : Gens V)
    (h : w.pkts.length < (each body n entries w now).1.pkts.length) {id : ℕ} (hid : inner id) :
    (each body n entries w now).2 id = [] := by
  induction n generalizing entries w now with
  | zero => exact absurd h (Nat.lt_irrefl _)
  | succ n ih =>
    cases hnext : next entries now with
    | none =>
      rw [each, hnext] at h
      exact absurd h (Nat.lt_irrefl _)
    | some found =>
      obtain ⟨e, rest, taken⟩ := found
      rw [each, hnext] at h ⊢
      by_cases hgrown : w.pkts.length < (body e w taken).1.pkts.length
      · exact (each_shrinks hshrinks n rest _ _).eq_nil (hdrained e w taken hgrown id hid)
      · exact ih rest _ _ (Nat.lt_of_le_of_lt (Nat.le_of_not_lt hgrown) h)

/-- A walk makes at most what its first turn may make, once for each element. -/
theorem each_bound (hshrinks : ∀ e w now, Shrunk (body e w now).2 now)
    (hmono : ∀ now later, Shrunk now gens → Shrunk later now → most later ≤ most now)
    (hmost : ∀ e w now, Shrunk now gens → (body e w now).1.pkts.length ≤ w.pkts.length + most now) (n : ℕ)
    (entries : List (FieldValue V)) (w : Walk C V) {now : Gens V} (hnow : Shrunk now gens) :
    (each body n entries w now).1.pkts.length ≤ w.pkts.length + (remaining now entries).length * most now := by
  -- Turn by turn: what is left of the values and of the payload only shrinks.
  induction n generalizing entries w now with
  | zero => exact Nat.le_add_right _ _
  | succ n ih =>
    rw [each]
    split
    · exact Nat.le_add_right _ _
    · next e rest taken hnext =>
      have htaken := (next_some hnext).1
      have hafter : Shrunk (body e w taken).2 now := (hshrinks e w taken).trans htaken
      have hturn := hmost e w taken (htaken.trans hnow)
      have hrest := ih rest (body e w taken).1 (hafter.trans hnow)
      have hlength : (remaining (body e w taken).2 rest).length + 1 ≤ (remaining now entries).length :=
        Nat.le_trans (Nat.succ_le_succ (remaining_length_le (hshrinks e w taken))) (next_length hnext)
      -- One turn, the turns behind it, and the count of both under what there was.
      calc (each body n rest (body e w taken).1 (body e w taken).2).1.pkts.length
          ≤ (body e w taken).1.pkts.length +
              (remaining (body e w taken).2 rest).length * most (body e w taken).2 := hrest
        _ ≤ (w.pkts.length + most now) + (remaining (body e w taken).2 rest).length * most now :=
          Nat.add_le_add (Nat.le_trans hturn (Nat.add_le_add_left (hmono now taken hnow htaken) _))
            (Nat.mul_le_mul_left _ (hmono now _ hnow hafter))
        _ = w.pkts.length + ((remaining (body e w taken).2 rest).length + 1) * most now := by
          rw [Nat.succ_mul]
          omega
        _ ≤ w.pkts.length + (remaining now entries).length * most now :=
          Nat.add_le_add_left (Nat.mul_le_mul_right _ hlength) _

/-- **A walk that makes all it might** names no generator object twice, finds none of them further in,
and has one turn where there is anything left further in. -/
theorem each_full {fresh : Gens V → Prop} (hshrinks : ∀ e w now, Shrunk (body e w now).2 now)
    (hmono : ∀ now later, Shrunk now gens → Shrunk later now → most later ≤ most now)
    (hmost : ∀ e w now, Shrunk now gens → (body e w now).1.pkts.length ≤ w.pkts.length + most now)
    (hsame : ∀ now later, Shrunk now gens → Shrunk later now → 0 < most later → most now ≤ most later →
      ∀ id, inner id → later id = now id)
    (hdrained : ∀ e w now, w.pkts.length < (body e w now).1.pkts.length →
      ∀ id, inner id → (body e w now).2 id = [])
    (hfull : ∀ e w now, Shrunk now gens → 0 < most now →
      w.pkts.length + most now ≤ (body e w now).1.pkts.length → fresh now)
    (n : ℕ) (entries : List (FieldValue V)) (w : Walk C V) {now : Gens V} (hnow : Shrunk now gens)
    (hpos : 0 < most now)
    (h : w.pkts.length + (remaining now entries).length * most now ≤
      (each body n entries w now).1.pkts.length) :
    (live now entries).Nodup ∧ (∀ id ∈ live now entries, ¬ inner id) ∧
      ((∀ id, inner id → now id = []) ∨ (remaining now entries).length ≤ 1) ∧
      (remaining now entries ≠ [] →
        ∃ later, (∀ id, inner id → later id = now id) ∧ Shrunk later now ∧ fresh later) := by
  induction n generalizing entries w now with
  | zero =>
    have hnil : remaining now entries = [] := by
      have hzero : (remaining now entries).length * most now = 0 := by
        rw [each] at h
        dsimp only at h
        omega
      rcases Nat.mul_eq_zero.1 hzero with hzero | hzero
      · exact List.length_eq_zero_iff.1 hzero
      · omega
    rw [live_of_remaining hnil, hnil]
    exact ⟨List.nodup_nil, fun id hid => absurd hid List.not_mem_nil, Or.inr (Nat.zero_le _),
      fun hne => absurd rfl hne⟩
  | succ n ih =>
    cases hnext : next entries now with
    | none =>
      have hnil := next_eq_none_iff.1 hnext
      rw [live_of_remaining hnil, hnil]
      exact ⟨List.nodup_nil, fun id hid => absurd hid List.not_mem_nil, Or.inr (Nat.zero_le _),
        fun hne => absurd rfl hne⟩
    | some found =>
      obtain ⟨e, rest, taken⟩ := found
      rw [each, hnext] at h
      dsimp only at h
      have htaken := (next_some hnext).1
      have hafter : Shrunk (body e w taken).2 now := (hshrinks e w taken).trans htaken
      have hturn := hmost e w taken (htaken.trans hnow)
      have hrest : (each body n rest (body e w taken).1 (body e w taken).2).1.pkts.length ≤
          (body e w taken).1.pkts.length +
            (remaining (body e w taken).2 rest).length * most (body e w taken).2 :=
        each_bound hshrinks hmono hmost n rest _ (hafter.trans hnow)
      have hone := next_length hnext
      have hless : (remaining (body e w taken).2 rest).length ≤ (remaining taken rest).length :=
        remaining_length_le (hshrinks e w taken)
      have htakenle := hmono now taken hnow htaken
      have hafterle := hmono now _ hnow hafter
      -- what the first turn and the others may make leaves nothing to spare
      generalize hb : most now = b at *
      generalize hc : (remaining now entries).length = c at *
      generalize hc' : (remaining (body e w taken).2 rest).length = c' at *
      have hprod : c' * most (body e w taken).2 ≤ c' * b := Nat.mul_le_mul_left _ hafterle
      have hfirst : b ≤ most taken := by
        have hgrow : (c' + 1) * b ≤ c * b := Nat.mul_le_mul_right _ (by omega)
        rw [Nat.succ_mul] at hgrow
        omega
      have hmade : w.pkts.length + b ≤ (body e w taken).1.pkts.length := by
        have hgrow : (c' + 1) * b ≤ c * b := Nat.mul_le_mul_right _ (by omega)
        rw [Nat.succ_mul] at hgrow
        omega
      have hcle : c ≤ c' + 1 := by
        by_contra hgt
        have hgrow : (c' + 2) * b ≤ c * b := Nat.mul_le_mul_right _ (by omega)
        rw [Nat.add_mul] at hgrow
        omega
      have hkept : ∀ id, inner id → taken id = now id :=
        hsame now taken hnow htaken (by omega) (by omega)
      have hfresh : fresh taken := hfull e w taken (htaken.trans hnow) (by omega) (by omega)
      -- the rest of the entries is as the turn found it
      have hequal : ∀ id, .generator id ∈ rest → (body e w taken).2 id = taken id := fun id hid =>
        eq_of_remaining (hshrinks e w taken) (by omega) hid
      have hlive : live (body e w taken).2 rest = live taken rest := live_congr hequal
      have hlast : (live taken rest).Nodup ∧ (∀ id ∈ live taken rest, ¬ inner id) ∧
          ((∀ id, inner id → now id = []) ∨ c ≤ 1) := by
        by_cases hzero : c' = 0
        · have hnil : remaining (body e w taken).2 rest = [] := List.length_eq_zero_iff.1 (hc'.trans hzero)
          rw [← hlive, live_of_remaining hnil]
          exact ⟨List.nodup_nil, fun id hid => absurd hid List.not_mem_nil, Or.inr (by omega)⟩
        · have hagain : b ≤ most (body e w taken).2 := by
            apply Nat.le_of_mul_le_mul_left _ (Nat.pos_of_ne_zero hzero)
            have hgrow : (c' + 1) * b ≤ c * b := Nat.mul_le_mul_right _ (by omega)
            rw [Nat.succ_mul] at hgrow
            omega
          have hind := ih rest (body e w taken).1 (hafter.trans hnow) (by omega) (by
            rw [hc']
            have hgrow : (c' + 1) * b ≤ c * b := Nat.mul_le_mul_right _ (by omega)
            rw [Nat.succ_mul] at hgrow
            omega)
          rw [hlive] at hind
          refine ⟨hind.1, hind.2.1, Or.inl ?_⟩
          intro id hid
          rw [← hsame now _ hnow hafter (by omega) (by omega) id hid]
          exact hdrained e w taken (by omega) id hid
      obtain ⟨hnodup, hapart⟩ := next_live hnext (by omega) hlast.1
      refine ⟨hnodup, ?_, hlast.2.2, fun _ => ⟨taken, hkept, htaken, hfresh⟩⟩
      intro id hid hinner
      rcases hapart id hid with hmem | hne
      · exact hlast.2.1 id hmem hinner
      · exact hne (hkept id hinner)

end Turns

/-- The assignments there are as things stand. -/
def ways (self : Layer C V) (todo : List String) (gens : Gens V) : ℕ :=
  (todo.map fun name => (self.elements gens name).length).prod

theorem ways_cons (self : Layer C V) (head : String) (todo : List String) (gens : Gens V) :
    ways self (head :: todo) gens = (self.elements gens head).length * ways self todo gens := by
  unfold ways
  rw [List.map_cons, List.prod_cons]

theorem ways_le {todo : List String} {now : Gens V} (hnow : Shrunk now gens) :
    ways self todo now ≤ ways self todo gens := by
  induction todo with
  | nil => exact Nat.le_refl _
  | cons head todo ih =>
    rw [ways_cons, ways_cons]
    exact Nat.mul_le_mul (remaining_length_le hnow) ih

/-- What is lost in one name is made up for in no other. -/
theorem eq_of_ways {todo : List String} {now : Gens V} (hnow : Shrunk now gens) (hpos : 0 < ways self todo now)
    (h : ways self todo gens ≤ ways self todo now) {id : ℕ} (hid : Names self todo id) : now id = gens id := by
  induction todo with
  | nil =>
    obtain ⟨name, hname, -⟩ := hid
    exact absurd hname List.not_mem_nil
  | cons head todo ih =>
    have hhead : (self.elements now head).length ≤ (self.elements gens head).length := remaining_length_le hnow
    have htail : ways self todo now ≤ ways self todo gens := ways_le hnow
    rw [ways_cons] at hpos
    rw [ways_cons, ways_cons] at h
    have hheadpos : 0 < (self.elements now head).length := Nat.pos_of_mul_pos_right hpos
    have htailpos : 0 < ways self todo now := Nat.pos_of_mul_pos_left hpos
    obtain ⟨name, hname, hid⟩ := hid
    rcases List.mem_cons.1 hname with rfl | hname
    · apply eq_of_remaining hnow _ hid
      apply Nat.le_of_mul_le_mul_right _ htailpos
      exact Nat.le_trans (Nat.mul_le_mul_left _ htail) h
    · apply ih htailpos _ ⟨name, hname, hid⟩
      apply Nat.le_of_mul_le_mul_left _ hheadpos
      exact Nat.le_trans (Nat.mul_le_mul_right _ hhead) h

/-- Freshness looks at the inner generators only. -/
theorem fresh_congr {todo : List String} {now later : Gens V}
    (h : ∀ id, Inner self todo payload id → later id = now id) (hfresh : Fresh later self payload todo) :
    Fresh now self payload todo := by
  induction todo with
  | nil => trivial
  | cons head todo ih =>
    have hentries : ∀ id, .generator id ∈ self.entries head → later id = now id := fun id hid =>
      h id (Or.inl ⟨head, List.mem_cons_self, hid⟩)
    have hinner : ∀ id, Inner self todo payload id → later id = now id := by
      rintro id (⟨name, hname, hid⟩ | hid)
      · exact h id (Or.inl ⟨name, List.mem_cons_of_mem _ hname, hid⟩)
      · exact h id (Or.inr hid)
    have helements : self.elements later head = self.elements now head := remaining_congr hentries
    obtain ⟨hnodup, hapart, hone, hfresh⟩ := hfresh
    rw [live_congr hentries] at hnodup hapart
    rw [helements] at hone
    refine ⟨hnodup, hapart, ?_, ih hinner hfresh⟩
    rcases hone with hspent | hone
    · exact Or.inl fun id hid => (hinner id hid).symm.trans (hspent id hid)
    · exact Or.inr hone

/-- A walk that finds its generator objects as they were does so where less is left of them. -/
theorem fresh_of_shrunk {todo : List String} {now : Gens V} (hnow : Shrunk now gens)
    (h : Fresh gens self payload todo) : Fresh now self payload todo := by
  induction todo with
  | nil => trivial
  | cons head todo ih =>
    obtain ⟨hnodup, hapart, hone, hfresh⟩ := h
    have hlive : (live now (self.entries head)).Sublist (live gens (self.entries head)) := by
      apply List.monotone_filter_right
      intro id hid
      cases hnil : gens id with
      | nil => rw [hnow.eq_nil hnil] at hid; exact hid
      | cons e rest => rfl
    refine ⟨hlive.nodup hnodup, fun id hid => hapart id (hlive.subset hid), ?_, ih hfresh⟩
    rcases hone with hspent | hone
    · exact Or.inl fun id hid => hnow.eq_nil (hspent id hid)
    · exact Or.inr (Nat.le_trans (remaining_length_le hnow) hone)

/-- Where nothing is left of any generator object there is nothing for the branches to share. -/
theorem fresh_of_spent {todo : List String} (h : ∀ id, Inner self todo payload id → gens id = []) :
    Fresh gens self payload todo := by
  induction todo with
  | nil => trivial
  | cons head todo ih =>
    have hlive : live gens (self.entries head) = [] := by
      rw [List.eq_nil_iff_forall_not_mem]
      intro id hid
      rw [mem_live] at hid
      exact hid.2 (h id (Or.inl ⟨head, List.mem_cons_self, hid.1⟩))
    have hinner : ∀ id, Inner self todo payload id → gens id = [] := by
      rintro id (⟨name, hname, hid⟩ | hid)
      · exact h id (Or.inl ⟨name, List.mem_cons_of_mem _ hname, hid⟩)
      · exact h id (Or.inr hid)
    rw [Fresh, hlive]
    exact ⟨List.nodup_nil, fun id hid => absurd hid List.not_mem_nil, Or.inl hinner, ih hinner⟩

section Yields

/- What is yielded once nothing is left to do, as many packets as `count`: it gives nothing back, makes
no more where less is left and less where something that it walks is gone, and walks it all. -/
variable {yields : Walk C V → Gens V → Walk C V × Gens V} {count : Gens V → ℕ}

theorem loop_shrinks (self : Layer C V) (hlocal : ∀ w, Local (Held payload) (yields w))
    (todo : List String) (name : String) (e : FieldValue V) (w : Walk C V) (now : Gens V) :
    Shrunk (loop self yields todo ⟨w.pkts, Function.update w.done name (some e)⟩ now).2 now :=
  (loop_local (fun w => (hlocal w).mono fun _ hid => Or.inr hid)
    (fun _ (hid : Names self todo _) => (Or.inl hid : Inner self todo payload _)) _).shrinks now

/-- A loop that yielded anything has drained every generator it goes over again and again. -/
theorem loop_drained (hlocal : ∀ w, Local (Held payload) (yields w))
    (hdrained : ∀ w now, w.pkts.length < (yields w now).1.pkts.length →
      ∀ id, Held payload id → (yields w now).2 id = []) {todo : List String} (w : Walk C V)
    (now : Gens V) (h : w.pkts.length < (loop self yields todo w now).1.pkts.length) {id : ℕ}
    (hid : Inner self todo payload id) : (loop self yields todo w now).2 id = [] := by
  induction todo generalizing w now id with
  | nil =>
    rcases hid with ⟨name, hname, -⟩ | hid
    · exact absurd hname List.not_mem_nil
    · exact hdrained w now h id hid
  | cons head todo ih =>
    have hshrinks := loop_shrinks self hlocal todo head
    -- a turn that yields more has spent what lies below
    have hturn : ∀ id, Inner self todo payload id → (loop self yields (head :: todo) w now).2 id = [] := by
      intro id hid
      rw [loop] at h ⊢
      exact each_drained hshrinks (fun e v now hgrown id hid =>
        ih ⟨v.pkts, Function.update v.done head (some e)⟩ now hgrown hid) _ _ w now h hid
    rcases hid with ⟨name, hname, hid⟩ | hid
    · rcases List.mem_cons.1 hname with rfl | hname
      · rw [loop]
        exact each_spent hshrinks _ w (Nat.le_refl _) hid
      · exact hturn id (Or.inl ⟨name, hname, hid⟩)
    · exact hturn id (Or.inr hid)

/-- The loop yields no more than the product, and less where a generator was met drained. -/
theorem loop_bound (hlocal : ∀ w, Local (Held payload) (yields w))
    (hcount : ∀ w now, Shrunk now gens → (yields w now).1.pkts.length = w.pkts.length + count now)
    (hmono : ∀ now later, Shrunk now gens → Shrunk later now → count later ≤ count now)
    {todo : List String} (w : Walk C V) {now : Gens V} (hnow : Shrunk now gens) :
    (loop self yields todo w now).1.pkts.length ≤ w.pkts.length + ways self todo now * count now := by
  induction todo generalizing w now with
  | nil =>
    rw [loop, hcount w now hnow, ways, List.map_nil, List.prod_nil, Nat.one_mul]
  | cons head todo ih =>
    rw [loop, ways_cons, Nat.mul_assoc]
    exact each_bound (loop_shrinks self hlocal todo head)
      (fun now later hnow hlater => Nat.mul_le_mul (ways_le hlater) (hmono now later hnow hlater))
      (fun e v now hnow => ih ⟨v.pkts, Function.update v.done head (some e)⟩ hnow) _ _ w hnow

/-- **A walk that makes the whole product** finds its generator objects as they were. -/
theorem loop_full (hlocal : ∀ w, Local (Held payload) (yields w))
    (hcount : ∀ w now, Shrunk now gens → (yields w now).1.pkts.length = w.pkts.length + count now)
    (hmono : ∀ now later, Shrunk now gens → Shrunk later now → count later ≤ count now)
    (hsame : ∀ now later, Shrunk now gens → Shrunk later now → 0 < count later → count now ≤ count later →
      ∀ id, Held payload id → later id = now id)
    (hdrained : ∀ w now, w.pkts.length < (yields w now).1.pkts.length →
      ∀ id, Held payload id → (yields w now).2 id = [])
    {todo : List String} (w : Walk C V) {now : Gens V} (hnow : Shrunk now gens)
    (hpos : 0 < ways self todo now * count now)
    (h : w.pkts.length + ways self todo now * count now ≤ (loop self yields todo w now).1.pkts.length) :
    Fresh now self payload todo := by
  induction todo generalizing w now with
  | nil => trivial
  | cons head todo ih =>
    have hless : ∀ now later : Gens V, Shrunk now gens → Shrunk later now →
        ways self todo later * count later ≤ ways self todo now * count now :=
      fun now later hnow hlater => Nat.mul_le_mul (ways_le hlater) (hmono now later hnow hlater)
    -- a product that has lost nothing has lost no factor, of the names or of what is yielded
    have hkept : ∀ now later : Gens V, Shrunk now gens → Shrunk later now →
        0 < ways self todo later * count later →
        ways self todo now * count now ≤ ways self todo later * count later →
        ∀ id, Inner self todo payload id → later id = now id := by
      intro now later hnow hlater hpos hle id hid
      have hways : ways self todo later ≤ ways self todo now := ways_le hlater
      have hcountle := hmono now later hnow hlater
      have hwayspos : 0 < ways self todo later := Nat.pos_of_mul_pos_right hpos
      have hcountpos : 0 < count later := Nat.pos_of_mul_pos_left hpos
      rcases hid with hid | hid
      · apply eq_of_ways hlater hwayspos _ hid
        apply Nat.le_of_mul_le_mul_right _ hcountpos
        exact Nat.le_trans (Nat.mul_le_mul_left _ hcountle) hle
      · apply hsame now later hnow hlater hcountpos _ id hid
        apply Nat.le_of_mul_le_mul_left _ hwayspos
        exact Nat.le_trans (Nat.mul_le_mul_right _ hways) hle
    rw [ways_cons, Nat.mul_assoc] at hpos h
    have hrestpos : 0 < ways self todo now * count now := Nat.pos_of_mul_pos_left hpos
    have hheadpos : 0 < (self.elements now head).length := Nat.pos_of_mul_pos_right hpos
    rw [loop] at h
    obtain ⟨hnodup, hapart, hone, hfresh⟩ := each_full (loop_shrinks self hlocal todo head) hless
      (fun e v now hnow =>
        loop_bound hlocal hcount hmono ⟨v.pkts, Function.update v.done head (some e)⟩ hnow) hkept
      (fun e v now hgrown id hid =>
        loop_drained hlocal hdrained ⟨v.pkts, Function.update v.done head (some e)⟩ now hgrown hid)
      (fun e v now hnow hpos hmade => ih ⟨v.pkts, Function.update v.done head (some e)⟩ hnow hpos hmade)
      _ _ w hnow hrestpos h
    obtain ⟨later, hlater, -, hfresh⟩ := hfresh (List.length_pos_iff.1 hheadpos)
    exact ⟨hnodup, hapart, hone, fresh_congr hlater hfresh⟩

end Yields

/-! ## What a payload makes where less is left -/

theorem unshared_of_shrunk {chain : Chain C V} {now : Gens V} (hnow : Shrunk now gens)
    (h : Unshared gens chain) : Unshared now chain := by
  induction chain with
  | NoPayload => trivial
  | packet self payload ih =>
    exact ⟨fun hexplicit hcached => fresh_of_shrunk hnow (h.1 hexplicit hcached), ih h.2⟩

theorem length_leaf (w : Walk C V) (now : Gens V) :
    (leaf overloads _fix self (payloads overloads _fix payload) w now).1.pkts.length =
      w.pkts.length + (payloads overloads _fix payload now).1.length := by
  unfold leaf made
  dsimp only
  rw [List.length_append, List.length_map]

/-- A payload that makes something leaves nothing of what it holds. -/
theorem payloads_drained (payload : Chain C V) (now : Gens V)
    (h : 0 < (payloads overloads _fix payload now).1.length) {id : ℕ} (hid : Held payload id) :
    (payloads overloads _fix payload now).2 id = [] := by
  -- By the chain: a payload that yielded was walked to its end, down to the last layer.
  induction payload generalizing now id with
  | NoPayload => exact hid.elim
  | packet self payload ih =>
    have hlocal : ∀ w : Walk C V,
        Local (Held payload) (leaf overloads _fix self (payloads overloads _fix payload) w) :=
      leaf_local (payloads_local payload)
    have hleaf : ∀ (w : Walk C V) now,
        w.pkts.length < (leaf overloads _fix self (payloads overloads _fix payload) w now).1.pkts.length →
        ∀ id, Held payload id →
          (leaf overloads _fix self (payloads overloads _fix payload) w now).2 id = [] := by
      intro w now hgrown id hid
      rw [length_leaf] at hgrown
      exact ih now (by omega) hid
    change 0 < ((iter overloads _fix (.packet self payload) now).1.map some).length at h
    change (iter overloads _fix (.packet self payload) now).2 id = []
    rw [List.length_map, iter_packet] at h
    rw [iter_packet]
    dsimp only at h ⊢
    by_cases hclosed : self.explicit ∨ self.cached
    · rw [if_pos hclosed] at h ⊢
      rcases hid with ⟨hexplicit, hcached, -⟩ | hid
      · rw [hexplicit, hcached] at hclosed
        exact absurd hclosed (by decide)
      · exact hleaf ⟨[], self.fields.get⟩ now h id hid
    · rw [if_neg hclosed] at h ⊢
      apply loop_drained hlocal hleaf ⟨[], fun _ => none⟩ now h
      rcases hid with ⟨-, -, hid⟩ | hid
      · exact Or.inl hid
      · exact Or.inr hid

theorem length_payloads (h : Unshared gens (.packet self payload)) :
    (payloads overloads _fix (.packet self payload) gens).1.length =
      (self.walked gens).length * (payloads overloads _fix payload gens).1.length := by
  change ((iter overloads _fix (.packet self payload) gens).1.map some).length = _
  rw [List.length_map, iter_of_fresh h.1, length_flatMap_made]

theorem length_walked_le {now : Gens V} (hnow : Shrunk now gens) :
    (self.walked now).length ≤ (self.walked gens).length := by
  unfold Layer.walked
  split
  · exact Nat.le_refl _
  · rw [length_assignments, length_assignments]
    exact ways_le hnow

/-- A payload makes no more where less is left of its generator objects, and less where it holds one of
them. -/
theorem payloads_less {now later : Gens V} (h : Unshared now payload) (hlater : Shrunk later now) :
    (payloads overloads _fix payload later).1.length ≤ (payloads overloads _fix payload now).1.length ∧
      (0 < (payloads overloads _fix payload later).1.length →
        (payloads overloads _fix payload now).1.length ≤ (payloads overloads _fix payload later).1.length →
        ∀ id, Held payload id → later id = now id) := by
  -- Layer by layer the counts multiply; a product that has not shrunk has shrunk in no factor.
  induction payload with
  | NoPayload => exact ⟨Nat.le_refl _, fun _ _ id hid => hid.elim⟩
  | packet self payload ih =>
    obtain ⟨hle, hsame⟩ := ih h.2
    have hwalked : (self.walked later).length ≤ (self.walked now).length := length_walked_le hlater
    rw [length_payloads h, length_payloads (unshared_of_shrunk hlater h)]
    refine ⟨Nat.mul_le_mul hwalked hle, ?_⟩
    intro hpos hfull id hid
    have hwalkedpos := Nat.pos_of_mul_pos_right hpos
    have hpayloadpos := Nat.pos_of_mul_pos_left hpos
    rcases hid with ⟨hexplicit, hcached, hid⟩ | hid
    -- the layer's own factor
    · have hfactor : (self.walked now).length ≤ (self.walked later).length := by
        apply Nat.le_of_mul_le_mul_right _ hpayloadpos
        exact Nat.le_trans (Nat.mul_le_mul_left _ hle) hfull
      rw [walked_of_open hexplicit hcached, length_assignments] at hwalkedpos
      rw [walked_of_open hexplicit hcached, walked_of_open hexplicit hcached, length_assignments,
        length_assignments] at hfactor
      exact eq_of_ways hlater hwalkedpos hfactor hid
    · apply hsame hpayloadpos _ id hid
      apply Nat.le_of_mul_le_mul_left _ hwalkedpos
      exact Nat.le_trans (Nat.mul_le_mul_right _ hwalked) hfull

/-! ## Every packet described, once -/

end

section
variable (overloads : C → C → Option (Dict V)) (_fix : V → FieldValue V)

/-- What `add_payload` leaves in the overloaded fields of a clone. -/
def overloaded_by (self : Layer C V) : Chain C V → Dict V
  | .NoPayload => self.overloaded_fields
  | .packet payload _ => (overloads payload.type self.type).getD self.overloaded_fields

/-- The payload overloads no field that is not walked to another value than it has. -/
def KeepsOthers (self : Layer C V) (payload : Chain C V) : Prop :=
  ∀ attr, attr ∉ self.todo → (self.getfieldval attr).isSome →
    ((overloaded_by overloads self payload).get attr <|> self.default_fields.get attr) =
      self.getfieldval attr

/-- No name of several elements is listed more than once. -/
def ListedOnce (self : Layer C V) (gens : Gens V) : Prop :=
  ∀ name, 1 < self.todo.count name → (self.elements gens name).length = 1

/-- Each packet described, once: no name of several elements twice, every generator object as it was,
and every other field with its own value. -/
def Exact (self : Layer C V) (payload : Chain C V) (gens : Gens V) : Prop :=
  ListedOnce self gens ∧ Fresh gens self payload self.todo.reverse ∧ KeepsOthers overloads self payload

variable {overloads _fix} {payload : Chain C V}

theorem mem_iter
    (hfresh : self.explicit = false → self.cached = false → Fresh gens self payload self.todo.reverse)
    {pkt : Clone C V} (h : pkt ∈ (iter overloads _fix (.packet self payload) gens).1) :
    ∃ done ∈ self.walked gens, ∃ payl ∈ (payloads overloads _fix payload gens).1,
      pkt = clone_with overloads self payl (fixed _fix done) := by
  rw [iter_of_fresh hfresh, List.mem_flatMap] at h
  obtain ⟨done, hdone, h⟩ := h
  obtain ⟨payl, hpayl, h⟩ := List.mem_map.1 h
  exact ⟨done, hdone, payl, hpayl, h.symm⟩

/-- What has been made is a clone of the packet. -/
theorem each_made {made : Clone C V → Prop} {body : FieldValue V → Walk C V → Gens V → Walk C V × Gens V}
    (hbody : ∀ e w now, (∀ pkt ∈ w.pkts, made pkt) → ∀ pkt ∈ (body e w now).1.pkts, made pkt) (n : ℕ)
    (entries : List (FieldValue V)) (w : Walk C V) (now : Gens V) (hw : ∀ pkt ∈ w.pkts, made pkt) :
    ∀ pkt ∈ (each body n entries w now).1.pkts, made pkt := by
  induction n generalizing entries w now with
  | zero => exact hw
  | succ n ih =>
    rw [each]
    split
    · exact hw
    · next e rest taken hnext => exact ih rest _ _ (hbody e w taken hw)

theorem loop_made {made : Clone C V → Prop} {yields : Walk C V → Gens V → Walk C V × Gens V}
    (hyields : ∀ w now, (∀ pkt ∈ w.pkts, made pkt) → ∀ pkt ∈ (yields w now).1.pkts, made pkt)
    (todo : List String) (w : Walk C V) (now : Gens V) (hw : ∀ pkt ∈ w.pkts, made pkt) :
    ∀ pkt ∈ (loop self yields todo w now).1.pkts, made pkt := by
  induction todo generalizing w now with
  | nil => exact hyields w now hw
  | cons head todo ih =>
    rw [loop]
    exact each_made (fun e v now hv => ih ⟨v.pkts, Function.update v.done head (some e)⟩ now hv) _ _ w now hw

/-- Every packet yielded is of the layer's own class. -/
theorem clone_type {pkt : Clone C V} (h : pkt ∈ (iter overloads _fix (.packet self payload) gens).1) :
    pkt.type = self.type := by
  have hleaf : ∀ (w : Walk C V) now, (∀ pkt ∈ w.pkts, pkt.type = self.type) →
      ∀ pkt ∈ (leaf overloads _fix self (payloads overloads _fix payload) w now).1.pkts,
        pkt.type = self.type := by
    intro w now hw pkt hpkt
    rcases List.mem_append.1 hpkt with hpkt | hpkt
    · exact hw pkt hpkt
    · obtain ⟨payl, -, rfl⟩ := List.mem_map.1 hpkt
      rfl
  have hnone : ∀ pkt ∈ ([] : List (Clone C V)), pkt.type = self.type := fun pkt hpkt =>
    absurd hpkt List.not_mem_nil
  rw [iter_packet] at h
  dsimp only at h
  split at h
  · exact hleaf _ gens hnone pkt h
  · exact loop_made hleaf _ _ gens hnone pkt h

theorem lookup_eq_none {items : List (String × FieldValue V)} {attr : String}
    (h : attr ∉ items.map Prod.fst) : items.lookup attr = none := by
  rw [List.lookup_eq_none_iff]
  intro item hitem
  rw [bne_iff_ne]
  rintro rfl
  exact h (List.mem_map_of_mem hitem)

/-- A field that is not walked has in a clone what the clone's overloaded fields and its default give. -/
theorem getfieldval_of_not_walked (hexplicit : self.explicit = false) (hcached : self.cached = false)
    (hfresh : Fresh gens self payload self.todo.reverse)
    {pkt : Clone C V} (h : pkt ∈ (iter overloads _fix (.packet self payload) gens).1) {attr : String}
    (hattr : attr ∉ self.todo) :
    pkt.getfieldval attr =
      ((overloaded_by overloads self payload).get attr <|> self.default_fields.get attr) := by
  obtain ⟨done, hdone, payl, hpayl, rfl⟩ := mem_iter (fun _ _ => hfresh) h
  rw [walked_of_open hexplicit hcached] at hdone
  have hundone : fixed _fix done attr = none := by
    unfold fixed
    rw [assignments_of_not_mem hdone (by rwa [List.mem_reverse])]
    rfl
  -- the type of a clone is its layer's, so the payload overloads the same
  have hoverloaded : overloaded_with overloads self payl = overloaded_by overloads self payload := by
    cases payload with
    | NoPayload =>
      rw [List.mem_singleton.1 hpayl]
      rfl
    | packet other payload =>
      obtain ⟨pkt, hpkt, rfl⟩ := List.mem_map.1 hpayl
      unfold overloaded_with overloaded_by
      dsimp only
      rw [clone_type hpkt]
  unfold clone_with Clone.getfieldval
  dsimp only
  rw [hoverloaded, hundone]
  rfl

/-- Where `add_payload` has put the payload there, the overloaded fields are those it overloads. -/
theorem keeps_others_of_linked (h : overloaded_by overloads self payload = self.overloaded_fields) :
    KeepsOthers overloads self payload := by
  intro attr hattr _
  have hfields : attr ∉ self.fields.items.map Prod.fst := fun hmem =>
    hattr (List.mem_append_right _ hmem)
  have hnone : self.fields.get attr = none := lookup_eq_none hfields
  rw [h, Layer.getfieldval, hnone]
  rfl

/-- The count of a fresh walk. -/
theorem length_iter (hexplicit : self.explicit = false) (hcached : self.cached = false)
    (hfresh : Fresh gens self payload self.todo.reverse) :
    (iter overloads _fix (.packet self payload) gens).1.length =
      ways self self.todo.reverse gens * (payloads overloads _fix payload gens).1.length := by
  rw [iter_of_fresh fun _ _ => hfresh, walked_of_open hexplicit hcached, length_flatMap_made,
    length_assignments]
  rfl

/-- What is listed once, fresh and kept is the product, packet by packet. -/
theorem exact_of_listed_once (hexplicit : self.explicit = false) (hcached : self.cached = false)
    (h : Exact overloads self payload gens) : ExactProduct overloads _fix self payload gens := by
  obtain ⟨hone, hfresh, hkeeps⟩ := h
  have hsame : (iter overloads _fix (.packet self payload) gens).1 =
      described overloads _fix self payload gens := by
    rw [iter_of_fresh fun _ _ => hfresh, walked_of_open hexplicit hcached]
    unfold described
    rw [assignments_dedup]
    · rfl
    · intro name hcount
      rw [List.count_reverse] at hcount
      exact hone name hcount
  refine ⟨by rw [hsame], by rw [hsame, length_described], ?_⟩
  intro pkt hpkt attr hattr hown
  have hattr' : attr ∉ self.todo := fun hname => hattr (mem_names.2 hname)
  rw [getfieldval_of_not_walked hexplicit hcached hfresh hpkt hattr']
  exact hkeeps attr hattr' hown

/-- As many packets as the product has leave no generator object to a first branch only. -/
theorem fresh_of_full (hexplicit : self.explicit = false) (hcached : self.cached = false)
    (hunshared : Unshared gens payload)
    (hpos : 0 < ways self self.todo.reverse gens * (payloads overloads _fix payload gens).1.length)
    (h : ways self self.todo.reverse gens * (payloads overloads _fix payload gens).1.length ≤
      (iter overloads _fix (.packet self payload) gens).1.length) :
    Fresh gens self payload self.todo.reverse := by
  have hlocal : ∀ w : Walk C V,
      Local (Held payload) (leaf overloads _fix self (payloads overloads _fix payload) w) :=
    leaf_local (payloads_local payload)
  -- No generator of the payload is shared, so a later leaf meets no more packets than an earlier
  -- one.
  have hless : ∀ now later : Gens V, Shrunk now gens → Shrunk later now → _ := fun now later hnow hlater =>
    @payloads_less V C overloads _fix payload now later (unshared_of_shrunk hnow hunshared) hlater
  have hdrained : ∀ (w : Walk C V) now,
      w.pkts.length < (leaf overloads _fix self (payloads overloads _fix payload) w now).1.pkts.length →
      ∀ id, Held payload id →
        (leaf overloads _fix self (payloads overloads _fix payload) w now).2 id = [] := by
    intro w now hgrown id hid
    rw [length_leaf] at hgrown
    exact payloads_drained payload now (by omega) hid
  -- The bound is met, so every turn yields as many packets as the first one could.
  rw [iter_packet, hexplicit, hcached, if_neg (by decide)] at h
  apply loop_full hlocal (fun w now _ => length_leaf w now)
    (fun now later hnow hlater => (hless now later hnow hlater).1)
    (fun now later hnow hlater => (hless now later hnow hlater).2) hdrained ⟨[], fun _ => none⟩
    (Shrunk.refl gens) hpos
  rw [List.length_nil, Nat.zero_add]
  exact h

end

/-- Two addresses, a generator object of three ports and a field that is drawn. -/
def addressed : Layer Unit ℕ where
  type := ()
  explicit := false
  cached := false
  fields := ⟨[("dst", .list [.int 1, .int 2]), ("port", .generator 0)], by decide⟩
  overloaded_fields := ⟨[], by decide⟩
  default_fields := ⟨[("dst", .int 0), ("id", .volatile 0), ("port", .int 53)], by decide⟩
  islist _ := false

/-- The ports of the one generator object there is. -/
def ports : Gens ℕ
  | 0 => [.int 80, .int 81, .int 82]
  | _ => []

/-- A generator object is walked by the first branch only: two packets where four are described. -/
example :
    let walked_once : Layer Unit ℕ :=
      ⟨(), false, false, ⟨[("b", .generator 0), ("a", .list [.int 1, .int 2])], by decide⟩,
        ⟨[], by decide⟩, ⟨[("a", .int 0), ("b", .int 0)], by decide⟩, fun _ => false⟩
    let gens : Gens ℕ := fun id => if id = 0 then [.int 5, .int 6] else []
    (iter (fun _ _ => none) FieldValue.plain (.packet walked_once .NoPayload) gens).1.length = 2 ∧
      (described (fun _ _ => none) FieldValue.plain walked_once .NoPayload gens).length = 4 := by
  decide

/-- A field that is drawn where it is not given, given two values. -/
def assigned_twice : Layer Unit ℕ where
  type := ()
  explicit := false
  cached := false
  fields := ⟨[("id", .list [.int 1, .int 2])], by decide⟩
  overloaded_fields := ⟨[], by decide⟩
  default_fields := ⟨[("id", .volatile 0)], by decide⟩
  islist _ := false

end Wiry.Pylayer
