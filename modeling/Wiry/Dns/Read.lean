/-
The two walks over a name in `crates/wiry-core/src/layers/dns.rs`: `read_name`, which
decodes it and follows its pointers, and `skip_name`, which only finds its end.

`NameAt` says what name stands at an offset, stretch by stretch: the labels up to the
first pointer, those from its target up to the next one, and so on to the root label.
It knows no budget, so every reader's own limits can be stated over it.
-/
import Wiry.Dns.Names

set_option autoImplicit false

namespace Wiry.Dns

open Packet (Bytes slice)

def MAX_JUMPS : ℕ := 64

def MAX_NAME_OCTETS : ℕ := 255

/-! ## `read_name` -/

/-- The variables of `read_name`'s loop. -/
structure NameWalk where
  labels : List Bytes
  at_ : ℕ
  end_ : Option ℕ
  jumps : ℕ
  octets : ℕ

/-- The loop of `read_name`: the labels, and the offset past the name in the original stream. -/
def read_name_loop (msg : Bytes) (w : NameWalk) : Option (List Bytes × ℕ) :=
  match _h : msg[w.at_]? with
  | none => none
  | some len =>
    if len &&& 0xC0 = 0 then
      if len = 0 then some (w.labels, w.end_.getD (w.at_ + 1))
      else
        let start := w.at_ + 1
        let stop := start + len.toNat
        if msg.length < stop then none
        else if MAX_NAME_OCTETS < w.octets + (len.toNat + 1) then none
        else
          read_name_loop msg
            { w with
              labels := w.labels ++ [slice msg start stop]
              at_ := stop
              octets := w.octets + (len.toNat + 1) }
    else if len &&& 0xC0 = 0xC0 then
      match msg[w.at_ + 1]? with
      | none => none
      | some lo =>
        let target := (len &&& 0x3F).toNat * 256 + lo.toNat
        if MAX_JUMPS < w.jumps + 1 ∨ w.at_ ≤ target then none
        else
          read_name_loop msg
            { w with
              at_ := target
              end_ := some (w.end_.getD (w.at_ + 2))
              jumps := w.jumps + 1 }
    else none
termination_by (MAX_JUMPS - w.jumps, msg.length - w.at_)
decreasing_by
  · have hlt := (List.getElem?_eq_some_iff.1 _h).1
    apply Prod.Lex.right
    omega
  · apply Prod.Lex.left
    omega

/-- `read_name` before `render`. -/
def read_labels (msg : Bytes) (pos : ℕ) : Option (List Bytes × ℕ) :=
  read_name_loop msg ⟨[], pos, none, 0, 0⟩

/-- The loop of `skip_name`. -/
def skip_name (msg : Bytes) (pos : ℕ) : Option ℕ :=
  match _h : msg[pos]? with
  | none => none
  | some len =>
    if len &&& 0xC0 = 0 then
      if len = 0 then some (pos + 1) else skip_name msg (pos + (1 + len.toNat))
    else if len &&& 0xC0 = 0xC0 then
      if pos + 2 ≤ msg.length then some (pos + 2) else none
    else none
termination_by msg.length - pos
decreasing_by
  have hlt := (List.getElem?_eq_some_iff.1 _h).1
  omega

/-! ## Names as they stand in a message -/

/-- At `p` the message holds a name: `segs` are its labels, cut where a pointer is followed,
and `e` is the offset behind its octets at `p`. -/
inductive NameAt (m : Bytes) : ℕ → List (List Bytes) → ℕ → Prop
  | root {p : ℕ} (here : m[p]? = some 0) : NameAt m p [[]] (p + 1)
  | label {p e : ℕ} {n : UInt8} {ls : List Bytes} {segs : List (List Bytes)}
      (here : m[p]? = some n) (pos : n ≠ 0) (short : n &&& 0xC0 = 0)
      (room : p + 1 + n.toNat ≤ m.length) (rest : NameAt m (p + 1 + n.toNat) (ls :: segs) e) :
      NameAt m p ((slice m (p + 1) (p + 1 + n.toNat) :: ls) :: segs) e
  | pointer {p e : ℕ} {hi lo : UInt8} {segs : List (List Bytes)}
      (here : m[p]? = some hi) (marked : hi &&& 0xC0 = 0xC0) (next : m[p + 1]? = some lo)
      (back : (hi &&& 0x3F).toNat * 256 + lo.toNat < p)
      (rest : NameAt m ((hi &&& 0x3F).toNat * 256 + lo.toNat) segs e) :
      NameAt m p ([] :: segs) (p + 2)

/-- The labels of a name, its pointers forgotten. -/
def labels_of (segs : List (List Bytes)) : List Bytes := segs.flatten

namespace NameAt

variable {m : Bytes} {p e : ℕ} {segs : List (List Bytes)}

theorem ne_nil (h : NameAt m p segs e) : segs ≠ [] := by
  cases h <;> exact List.cons_ne_nil _ _

theorem length_pos (h : NameAt m p segs e) : 0 < segs.length :=
  List.length_pos_iff.2 h.ne_nil

theorem bounds (h : NameAt m p segs e) : p < e ∧ e ≤ m.length := by
  induction h with
  | root here => exact ⟨by omega, (List.getElem?_eq_some_iff.1 here).1⟩
  | label here pos short room rest ih => exact ⟨by omega, ih.2⟩
  | pointer here marked next back rest ih => exact ⟨by omega, (List.getElem?_eq_some_iff.1 next).1⟩

/-- A message and an offset have one name at most. -/
theorem unique {segs' : List (List Bytes)} {e' : ℕ} (h : NameAt m p segs e)
    (h' : NameAt m p segs' e') : segs = segs' ∧ e = e' := by
  -- By the first derivation: the octet at the cursor decides which rule the second one ends in.
  induction h generalizing segs' e' with
  | root here =>
    cases h' with
    | root _ => exact ⟨rfl, rfl⟩
    | label here' pos' _ _ _ => exact absurd (Option.some.inj (here'.symm.trans here)) pos'
    | pointer here' marked' _ _ _ =>
      obtain rfl := Option.some.inj (here.symm.trans here')
      exact absurd marked' (by decide)
  -- Two labels have one length, so their octets are the same and the names behind them start
  -- together.
  | label here pos short room rest ih =>
    cases h' with
    | root here' => exact absurd (Option.some.inj (here.symm.trans here')) pos
    | label here' _ _ _ rest' =>
      obtain rfl := Option.some.inj (here.symm.trans here')
      obtain ⟨hsegs, he⟩ := ih rest'
      rw [List.cons.injEq] at hsegs
      exact ⟨by rw [hsegs.1, hsegs.2], he⟩
    | pointer here' marked' _ _ _ =>
      obtain rfl := Option.some.inj (here.symm.trans here')
      rw [short] at marked'
      exact absurd marked' (by decide)
  -- Two pointers lead to one offset; the names there are the induction's, and both end behind the
  -- two octets.
  | pointer here marked next back rest ih =>
    cases h' with
    | root here' =>
      obtain rfl := Option.some.inj (here'.symm.trans here)
      exact absurd marked (by decide)
    | label here' _ short' _ _ =>
      obtain rfl := Option.some.inj (here'.symm.trans here)
      rw [short'] at marked
      exact absurd marked (by decide)
    | pointer here' _ next' _ rest' =>
      obtain rfl := Option.some.inj (here.symm.trans here')
      obtain rfl := Option.some.inj (next.symm.trans next')
      exact ⟨by rw [(ih rest').1], rfl⟩

/-- Octets appended to a message leave its names as they are. -/
theorem append (h : NameAt m p segs e) (tail : Bytes) : NameAt (m ++ tail) p segs e := by
  have keep {i : ℕ} {o : UInt8} (hi : m[i]? = some o) : (m ++ tail)[i]? = some o :=
    (List.getElem?_append_left (List.getElem?_eq_some_iff.1 hi).1).trans hi
  induction h with
  | root here => exact .root (keep here)
  | label here pos short room rest ih =>
    rw [← Packet.slice_append_left tail room]
    exact .label (keep here) pos short (by rw [List.length_append]; omega) ih
  | pointer here marked next back rest ih => exact .pointer (keep here) marked (keep next) back ih

/-- `skip_name` finds the end of a name. -/
theorem skip_name_eq (h : NameAt m p segs e) : skip_name m p = some e := by
  induction h with
  | @root p here =>
    rw [skip_name.eq_def]
    split
    · next hn => exact absurd (here.symm.trans hn) (Option.some_ne_none _)
    · next cur hc =>
      obtain rfl := Option.some.inj (here.symm.trans hc)
      rfl
  | @label p e n ls segs here pos short room rest ih =>
    rw [skip_name.eq_def]
    split
    · next hn => exact absurd (here.symm.trans hn) (Option.some_ne_none _)
    · next cur hc =>
      obtain rfl := Option.some.inj (here.symm.trans hc)
      rw [if_pos short, if_neg pos, ← Nat.add_assoc, ih]
  | @pointer p e hi lo segs here marked next back rest ih =>
    rw [skip_name.eq_def]
    split
    · next hn => exact absurd (here.symm.trans hn) (Option.some_ne_none _)
    · next cur hc =>
      obtain rfl := Option.some.inj (here.symm.trans hc)
      have hroom : p + 2 ≤ m.length := (List.getElem?_eq_some_iff.1 next).1
      rw [if_neg (by rw [marked]; decide), if_pos marked, if_pos hroom]

end NameAt

/-! ## What `read_name` accepts -/

/-- From any point of its walk, `read_name` accepts only where a name stands. -/
theorem read_name_loop_sound (m : Bytes) (w : NameWalk) {ls : List Bytes} {e : ℕ}
    (h : read_name_loop m w = some (ls, e)) :
    ∃ segs e', NameAt m w.at_ segs e' ∧ ls = w.labels ++ labels_of segs ∧ e = w.end_.getD e' := by
  fun_induction read_name_loop m w with
  | case1 w hn => cases h
  | case2 w hc short =>
    cases h
    exact ⟨[[]], w.at_ + 1, .root hc, by simp [labels_of], rfl⟩
  | case3 w len hc short pos start stop room => cases h
  | case4 w len hc short pos start stop room octets => cases h
  | case5 w len hc short pos start stop room octets ih =>
    obtain ⟨segs, e', hat, rfl, he⟩ := ih h
    obtain ⟨ks, segs, rfl⟩ := List.exists_cons_of_ne_nil hat.ne_nil
    refine ⟨_, e', .label hc pos short (not_lt.1 room) hat, ?_, he⟩
    simp [labels_of, start, stop]
  | case6 w len hc short marked lo => cases h
  | case7 w len hc short marked lo hlo target hstop => cases h
  | case8 w len hc short marked lo hlo target hstop ih =>
    obtain ⟨segs, e', hat, rfl, he⟩ := ih h
    refine ⟨_, _, .pointer hc marked hlo (not_le.1 fun hle => hstop (.inr hle)) hat, ?_, he⟩
    simp [labels_of]
  | case9 w len hc short marked => cases h

theorem read_labels_sound {m : Bytes} {p : ℕ} {ls : List Bytes} {e : ℕ}
    (h : read_labels m p = some (ls, e)) : ∃ segs, NameAt m p segs e ∧ ls = labels_of segs := by
  obtain ⟨segs, e', hat, hls, he⟩ := read_name_loop_sound m _ h
  exact ⟨segs, he ▸ hat, hls⟩

/-- The octets of a name's labels on the wire, the root label's apart. -/
def label_octets (ls : List Bytes) : ℕ := (ls.map fun l => l.length + 1).sum

theorem label_octets_cons (l : Bytes) (ls : List Bytes) (segs : List (List Bytes)) :
    label_octets (labels_of ((l :: ls) :: segs))
      = l.length + 1 + label_octets (labels_of (ls :: segs)) := by
  simp [label_octets, labels_of]

/-- Within its two limits `read_name` accepts every name. -/
theorem read_name_loop_complete {m : Bytes} {p e : ℕ} {segs : List (List Bytes)}
    (h : NameAt m p segs e) {w : NameWalk} (hat : w.at_ = p)
    (hjumps : w.jumps + segs.length ≤ MAX_JUMPS + 1)
    (hoctets : w.octets + label_octets (labels_of segs) ≤ MAX_NAME_OCTETS) :
    read_name_loop m w = some (w.labels ++ labels_of segs, w.end_.getD e) := by
  -- By the derivation of the name, with the walk standing where it starts.
  induction h generalizing w with
  | @root p here =>
    subst hat
    rw [read_name_loop.eq_def]
    split
    · next hn => exact absurd (here.symm.trans hn) (Option.some_ne_none _)
    · next cur hc =>
      obtain rfl := Option.some.inj (here.symm.trans hc)
      rw [if_pos (by decide), if_pos rfl]
      simp [labels_of]
  -- A label is paid for by its own octets, so the bound on the rest is the induction's.
  | @label p e n ls segs here pos short room rest ih =>
    subst hat
    have hlen : (slice m (w.at_ + 1) (w.at_ + 1 + n.toNat)).length = n.toNat := by
      rw [Packet.length_slice room]
      omega
    rw [label_octets_cons, hlen] at hoctets
    rw [read_name_loop.eq_def]
    split
    · next hn => exact absurd (here.symm.trans hn) (Option.some_ne_none _)
    · next cur hc =>
      obtain rfl := Option.some.inj (here.symm.trans hc)
      rw [if_pos short, if_neg pos]
      dsimp only
      rw [if_neg (by omega), if_neg (by omega)]
      refine (ih ?_ ?_ ?_).trans ?_
      · rfl
      · exact hjumps
      · dsimp only
        omega
      · simp [labels_of]
  -- A jump is paid for by the segment it starts.
  | @pointer p e hi lo segs here marked next back rest ih =>
    subst hat
    rw [List.length_cons] at hjumps
    have hgo := rest.length_pos
    rw [read_name_loop.eq_def]
    split
    · next hn => exact absurd (here.symm.trans hn) (Option.some_ne_none _)
    · next cur hc =>
      obtain rfl := Option.some.inj (here.symm.trans hc)
      rw [if_neg (by rw [marked]; decide), if_pos marked]
      simp only [next]
      rw [if_neg (by omega)]
      refine (ih ?_ ?_ ?_).trans ?_
      · rfl
      · dsimp only
        omega
      · exact hoctets
      · simp [labels_of]

theorem read_labels_complete {m : Bytes} {p e : ℕ} {segs : List (List Bytes)} (h : NameAt m p segs e)
    (hjumps : segs.length ≤ MAX_JUMPS + 1) (hoctets : label_octets (labels_of segs) ≤ MAX_NAME_OCTETS) :
    read_labels m p = some (labels_of segs, e) :=
  read_name_loop_complete (w := ⟨[], p, none, 0, 0⟩) h rfl (by dsimp only; omega) (by dsimp only; omega)

end Wiry.Dns
