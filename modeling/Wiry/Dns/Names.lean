/-
Domain names as `python/wiry/layers/dns.py` reads and writes them: `dns_get_str`
with its escaping, `dns_encode`, and the field that stores a name between the two.

`full` is the message compression pointers count in, empty where there is none; a
name is read with compression honoured, as every caller but one asks.
-/
import Wiry.Packet.Octets

set_option autoImplicit false

namespace Wiry.Dns

open Packet (Bytes slice)

def DOT : UInt8 := 0x2e

def BACKSLASH : UInt8 := 0x5c

/-! ## Presentation form -/

/-- `_escape`: a dot or backslash inside a label is escaped. -/
def escape (label : Bytes) : Bytes :=
  label.flatMap fun c => if c = BACKSLASH ∨ c = DOT then [BACKSLASH, c] else [c]

/-- `_dots` from offset `i` on: the offsets of the dots that separate labels. -/
def dots_from : ℕ → Bytes → List ℕ
  | _, [] => []
  | i, c :: rest =>
    if c = BACKSLASH then
      match rest with
      | [] => []
      | _ :: rest => dots_from (i + 2) rest
    else if c = DOT then i :: dots_from (i + 1) rest
    else dots_from (i + 1) rest

def dots (x : Bytes) : List ℕ := dots_from 0 x

/-- `bytes.isdigit` of one octet. -/
def is_digit (c : UInt8) : Bool := 48 ≤ c && c ≤ 57

/-- The octet `\DDD` stands for, where three digits below 256 follow the backslash. -/
def decimal_octet : Bytes → Option UInt8
  | a :: b :: c :: _ =>
    let n := (a.toNat - 48) * 100 + (b.toNat - 48) * 10 + (c.toNat - 48)
    if is_digit a && is_digit b && is_digit c && decide (n < 256) then some (UInt8.ofNat n) else none
  | _ => none

/-- The loop of `_unescape`. -/
def unescape_loop : Bytes → Bytes
  | [] => []
  | c :: rest =>
    if c = BACKSLASH then
      match rest with
      | [] => [c]
      | d :: rest' =>
        match decimal_octet (d :: rest') with
        | some o => o :: unescape_loop (rest'.drop 2)
        | none => d :: unescape_loop rest'
    else c :: unescape_loop rest
termination_by x => x.length
decreasing_by all_goals simp only [List.length_drop, List.length_cons]; omega

/-- `_unescape`: a label's octets from its presentation form. -/
def unescape (text : Bytes) : Bytes := if BACKSLASH ∈ text then unescape_loop text else text

/-- `_split_labels`: cut at the separating dots, each label unescaped. -/
def split_labels (x : Bytes) : List Bytes :=
  List.zipWith (fun a b => unescape (slice x a b)) (0 :: (dots x).map (· + 1)) (dots x ++ [x.length])

/-- A list of labels as `dns_get_str` spells it. -/
def present (labels : List Bytes) : Bytes := labels.flatMap fun l => escape l ++ [DOT]

/-! ## Wire form -/

/-- `_is_ptr`: whether `x` already looks encoded. -/
def is_ptr (x : Bytes) : Bool :=
  x.getLast? == some 0 || (x.dropLast.getLast?).any fun c => c &&& 0xC0 == 0xC0

/-- A label behind its length octet. -/
def wire_label (l : Bytes) : Bytes := UInt8.ofNat l.length :: l

/-- `dns_encode`: a label over 63 octets is truncated. -/
def dns_encode (x : Bytes) (check_built : Bool) : Bytes :=
  if x = [] ∨ x = [DOT] then [0]
  else if check_built && is_ptr x then x
  else
    let x := (split_labels x).flatMap fun k => wire_label (k.take 63)
    if x.getLast? = some 0 then x else x ++ [0]

/-! ## Reading -/

/-- Where a name's walk is: `left` is set, and `s` swapped for the whole message, at the first jump. -/
structure Cursor where
  s : Bytes
  pointer : ℕ
  name : Bytes
  after_pointer : Option ℕ
  processed_pointers : List ℕ
  bytes_left : Option Bytes

inductive NameError where
  /-- DNS message can't be compressed at this point. -/
  | Uncompressible
deriving DecidableEq

/-- The loop of `dns_get_str`, to its `break`. -/
def get_str_loop (full : Bytes) (w : Cursor) : Except NameError Cursor :=
  match _h : w.s[w.pointer]? with
  | none => .ok w
  | some cur =>
    if cur &&& 0xC0 ≠ 0 then
      let after := w.after_pointer.getD (w.pointer + 2)
      match w.s[w.pointer + 1]? with
      | none => .ok { w with pointer := w.pointer + 1, after_pointer := some after }
      | some lo =>
        if full = [] then .error .Uncompressible
        else
          let target := (cur &&& 0x3F).toNat * 256 + lo.toNat
          if target ∈ w.processed_pointers then
            .ok { w with pointer := target, after_pointer := some after }
          else if 20 ≤ w.processed_pointers.length then
            .ok { w with pointer := target, after_pointer := some after }
          else
            get_str_loop full
              { s := if w.bytes_left.isSome then w.s else full
                pointer := target
                name := w.name
                after_pointer := some after
                processed_pointers := w.processed_pointers ++ [target]
                bytes_left := some (w.bytes_left.getD (w.s.drop after)) }
    else if cur ≠ 0 then
      get_str_loop full
        { w with
          name := w.name ++ escape (slice w.s (w.pointer + 1) (w.pointer + 1 + cur.toNat)) ++ [DOT]
          pointer := w.pointer + 1 + cur.toNat }
    else .ok { w with pointer := w.pointer + 1 }
termination_by (20 - w.processed_pointers.length, w.s.length - w.pointer)
decreasing_by
  · apply Prod.Lex.left
    rw [List.length_append, List.length_singleton]
    omega
  · have hlt := (List.getElem?_eq_some_iff.1 _h).1
    apply Prod.Lex.right
    omega

/-- `dns_get_str`: the name at the start of `s`, and what is left behind it. -/
def dns_get_str (s full : Bytes) : Except NameError (Bytes × Bytes) :=
  match get_str_loop full ⟨s, 0, [], none, [], none⟩ with
  | .error e => .error e
  | .ok w =>
    let pointer := w.after_pointer.getD w.pointer
    .ok (if w.name = [] then [DOT] else w.name, w.bytes_left.getD (w.s.drop pointer))

/-! ## The field -/

/-- `DNSStrField.h2i` of a name outside any packet. -/
def h2i (x : Bytes) : Bytes :=
  if x = [] then [DOT]
  else if x.getLast? ≠ some DOT ∧ is_ptr x = false then x ++ [DOT]
  else x

/-- `DNSStrField.i2m`. -/
def i2m (x : Bytes) : Bytes := dns_encode x true

/-! ## Escaping undone -/

@[simp] theorem escape_nil : escape [] = [] := rfl

/-- An octet the separator or the escape would be read as. -/
abbrev Special (c : UInt8) : Prop := c = BACKSLASH ∨ c = DOT

theorem escape_special {c : UInt8} (hc : Special c) (l : Bytes) :
    escape (c :: l) = BACKSLASH :: c :: escape l := by
  rw [escape, List.flatMap_cons, if_pos hc]
  rfl

theorem escape_plain {c : UInt8} (hc : ¬ Special c) (l : Bytes) :
    escape (c :: l) = c :: escape l := by
  rw [escape, List.flatMap_cons, if_neg hc]
  rfl

theorem decimal_octet_special {c : UInt8} (hc : Special c) (y : Bytes) :
    decimal_octet (c :: y) = none := by
  have hdigit : is_digit c = false := by rcases hc with rfl | rfl <;> decide
  match y with
  | [] => rfl
  | [_] => rfl
  | _ :: _ :: _ => simp [decimal_octet, hdigit]

theorem unescape_loop_plain {text : Bytes} (h : BACKSLASH ∉ text) : unescape_loop text = text := by
  induction text with
  | nil => rw [unescape_loop]
  | cons c rest ih =>
    have hc : c ≠ BACKSLASH := fun heq => h (by simp [heq])
    rw [unescape_loop.eq_def]
    dsimp only
    rw [if_neg hc, ih fun hr => h (List.mem_cons_of_mem _ hr)]

theorem unescape_eq (text : Bytes) : unescape text = unescape_loop text := by
  unfold unescape
  split
  · rfl
  · next h => exact (unescape_loop_plain h).symm

/-- Behind a backslash the escape wrote stands one of its two octets, so no `\DDD` is read. -/
theorem unescape_escape (l : Bytes) : unescape (escape l) = l := by
  rw [unescape_eq]
  induction l with
  | nil => rw [escape_nil, unescape_loop]
  | cons c l ih =>
    by_cases hc : Special c
    · rw [escape_special hc, unescape_loop.eq_def]
      dsimp only
      rw [if_pos rfl, decimal_octet_special hc]
      dsimp only
      rw [ih]
    · rw [escape_plain hc, unescape_loop.eq_def]
      dsimp only
      rw [if_neg fun h => hc (.inl h), ih]

/-! ## Separating dots -/

/-- An escaped octet is no dot. -/
theorem dots_from_special {c : UInt8} (i : ℕ) (y : Bytes) :
    dots_from i (BACKSLASH :: c :: y) = dots_from (i + 2) y := by
  rw [dots_from.eq_def]
  dsimp only
  rw [if_pos rfl]

/-- Nor is a plain one. -/
theorem dots_from_plain {c : UInt8} (hc : ¬ Special c) (i : ℕ) (y : Bytes) :
    dots_from i (c :: y) = dots_from (i + 1) y := by
  rw [dots_from.eq_def]
  dsimp only
  rw [if_neg fun h => hc (.inl h), if_neg fun h => hc (.inr h)]

theorem dots_from_dot (i : ℕ) (y : Bytes) : dots_from i (DOT :: y) = i :: dots_from (i + 1) y := by
  rw [dots_from.eq_def]
  dsimp only
  rw [if_neg (by decide), if_pos rfl]

/-- Moving a string moves its dots. -/
theorem dots_from_add (i k : ℕ) (x : Bytes) :
    dots_from (i + k) x = (dots_from i x).map (· + k) := by
  fun_induction dots_from i x with
  | case1 => rfl
  | case2 i => rfl
  | case3 i c rest ih =>
    rw [dots_from_special, ← ih]
    congr 1
    omega
  | case4 i rest _ ih =>
    rw [dots_from_dot, List.map_cons, ← ih]
    congr 2
    omega
  | case5 i c rest hb hd ih =>
    rw [dots_from_plain (by simp [hb, hd]), ← ih]
    congr 1
    omega

/-- No dot of an escaped label separates. -/
theorem dots_from_escape (l y : Bytes) (i : ℕ) :
    dots_from i (escape l ++ y) = dots_from (i + (escape l).length) y := by
  induction l generalizing i with
  | nil => rfl
  | cons c l ih =>
    by_cases hc : Special c
    · rw [escape_special hc, List.cons_append, List.cons_append, dots_from_special, ih]
      simp only [List.length_cons]
      congr 1
      omega
    · rw [escape_plain hc, List.cons_append, dots_from_plain hc, ih]
      simp only [List.length_cons]
      congr 1
      omega

theorem slice_shift (f g : Bytes) (a b : ℕ) :
    slice (f ++ g) (a + f.length) (b + f.length) = slice g a b := by
  unfold slice
  rw [Nat.add_comm b, List.take_length_add_append, Nat.add_comm a, ← List.drop_drop, List.drop_left]

@[simp] theorem split_labels_nil : split_labels [] = [[]] := by
  simp [split_labels, dots, dots_from, slice, unescape]

/-- A label written with its dots escaped is split off whole, whatever the labels behind it. -/
theorem split_labels_cons (l y : Bytes) :
    split_labels (escape l ++ DOT :: y) = l :: split_labels y := by
  have hdots : dots (escape l ++ DOT :: y)
      = (escape l).length :: (dots y).map (· + ((escape l).length + 1)) := by
    unfold dots
    rw [dots_from_escape, dots_from_dot, Nat.zero_add, ← dots_from_add, Nat.zero_add]
  have hfirst : slice (escape l ++ DOT :: y) 0 (escape l).length = escape l := by
    simp [slice]
  have hrest (a b : ℕ) : slice (escape l ++ DOT :: y) (a + ((escape l).length + 1))
      (b + ((escape l).length + 1)) = slice y a b := by
    rw [← slice_shift (escape l ++ [DOT]) y]
    simp
  unfold split_labels
  rw [hdots, List.map_cons, List.cons_append, List.zipWith_cons_cons, hfirst, unescape_escape]
  congr 1
  -- every cut behind the first label's dot is one of `y`'s, moved on by what stands before `y`
  have hstarts (n : ℕ) : n :: ((dots y).map (· + n)).map (· + 1)
      = (0 :: (dots y).map (· + 1)).map (· + n) := by
    rw [List.map_map, List.map_cons, List.map_map, Nat.zero_add]
    apply congrArg (n :: ·)
    apply List.map_congr_left
    intro a _
    exact Nat.add_right_comm a n 1
  have hstops : (dots y).map (· + ((escape l).length + 1)) ++ [(escape l ++ DOT :: y).length]
      = (dots y ++ [y.length]).map (· + ((escape l).length + 1)) := by
    rw [List.map_append, List.map_singleton, List.length_append, List.length_cons]
    congr 2
    omega
  rw [hstarts, hstops, List.zipWith_map]
  simp only [hrest]

@[simp] theorem present_nil : present [] = [] := rfl

theorem present_cons (l : Bytes) (ls : List Bytes) :
    present (l :: ls) = escape l ++ DOT :: present ls := by
  simp [present]

theorem present_append (ls ks : List Bytes) : present (ls ++ ks) = present ls ++ present ks := by
  rw [present, List.flatMap_append]
  rfl

/-- The labels of a presented name, and the empty one its trailing dot leaves. -/
theorem split_labels_present (ls : List Bytes) : split_labels (present ls) = ls ++ [[]] := by
  induction ls with
  | nil => simp
  | cons l ls ih => rw [present_cons, split_labels_cons, ih, List.cons_append]

/-! ## The octet before the trailing dot -/

/-- Escaping keeps a label's last octet where it was. -/
theorem escape_getLast? (l : Bytes) : (escape l).getLast? = l.getLast? := by
  induction l with
  | nil => rfl
  | cons c l ih =>
    by_cases hc : Special c
    · rw [escape_special hc, List.getLast?_cons, List.getLast?_cons, ih, List.getLast?_cons]
      rfl
    · rw [escape_plain hc, List.getLast?_cons, List.getLast?_cons, ih]

theorem escape_eq_nil {l : Bytes} : escape l = [] ↔ l = [] := by
  rw [← List.getLast?_eq_none_iff, escape_getLast?, List.getLast?_eq_none_iff]

/-- A presented name, its last label apart. -/
theorem present_concat (ls : List Bytes) (l : Bytes) :
    present (ls ++ [l]) = present ls ++ escape l ++ [DOT] := by
  rw [present_append, present_cons, present_nil, List.append_assoc]

/-- A name of at least one label is presented as more than a dot, ending in one. -/
theorem present_spelt (ls : List Bytes) {l : Bytes} (hl : l ≠ []) :
    present (ls ++ [l]) ≠ [] ∧ present (ls ++ [l]) ≠ [DOT]
      ∧ (present (ls ++ [l])).getLast? = some DOT := by
  have hlast : (present (ls ++ [l])).dropLast.getLast? = l.getLast? ∧
      (present (ls ++ [l])).getLast? = some DOT := by
    have hne : escape l ≠ [] := fun h => hl (escape_eq_nil.1 h)
    rw [present_concat, List.dropLast_concat, List.getLast?_concat,
      List.getLast?_append_of_ne_nil _ hne, escape_getLast?]
    exact ⟨rfl, rfl⟩
  refine ⟨?_, ?_, hlast.2⟩
  · intro h
    rw [h] at hlast
    exact absurd hlast.2 (by decide)
  · intro h
    rw [h] at hlast
    exact hl (List.getLast?_eq_none_iff.1 hlast.1.symm)

/-! ## Runs of labels -/

/-- From `at_` to `stop` the message holds the labels `ls`, one behind the other. -/
inductive LabelsAt (s : Bytes) : ℕ → List Bytes → ℕ → Prop
  | nil (p : ℕ) : LabelsAt s p [] p
  | cons {p q : ℕ} {n : UInt8} {ls : List Bytes} (here : s[p]? = some n) (pos : n ≠ 0)
      (short : n &&& 0xC0 = 0) (room : p + 1 + n.toNat ≤ s.length)
      (rest : LabelsAt s (p + 1 + n.toNat) ls q) :
      LabelsAt s p (slice s (p + 1) (p + 1 + n.toNat) :: ls) q

/-- One turn on a label: its octets are copied with a dot behind them, and the cursor stands behind
the label. -/
theorem get_str_loop_label {w : Cursor} {n : UInt8} (here : w.s[w.pointer]? = some n) (pos : n ≠ 0)
    (short : n &&& 0xC0 = 0) (full : Bytes) :
    get_str_loop full w = get_str_loop full
      { w with
        name := w.name ++ escape (slice w.s (w.pointer + 1) (w.pointer + 1 + n.toNat)) ++ [DOT]
        pointer := w.pointer + 1 + n.toNat } := by
  rw [get_str_loop.eq_def]
  split
  · next h => exact absurd (here.symm.trans h) (Option.some_ne_none n)
  · next cur h =>
    obtain rfl : n = cur := Option.some.inj (here.symm.trans h)
    rw [if_neg (not_not.2 short), if_pos pos]

/-- `dns_get_str` over a run of labels. -/
theorem get_str_loop_labels {s : Bytes} {p q : ℕ} {ls : List Bytes} (h : LabelsAt s p ls q)
    (full name : Bytes) (after : Option ℕ) (seen : List ℕ) (left : Option Bytes) :
    get_str_loop full ⟨s, p, name, after, seen, left⟩
      = get_str_loop full ⟨s, q, name ++ present ls, after, seen, left⟩ := by
  induction h generalizing name with
  | nil p => simp
  | @cons p q n ls here pos short room rest ih =>
    rw [get_str_loop_label here pos short, ih]
    simp [present_cons]

/-- `dns_get_str` at the root label. -/
theorem get_str_loop_root {w : Cursor} (h : w.s[w.pointer]? = some 0) (full : Bytes) :
    get_str_loop full w = .ok { w with pointer := w.pointer + 1 } := by
  rw [get_str_loop.eq_def]
  split
  · next hn => exact absurd (h.symm.trans hn) (Option.some_ne_none 0)
  · next cur hc =>
    obtain rfl : 0 = cur := Option.some.inj (h.symm.trans hc)
    rfl

end Wiry.Dns
