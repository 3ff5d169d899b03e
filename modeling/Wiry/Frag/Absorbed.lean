/-
A whole run of `Group::absorb`: the ranges held are the longest stretches of what was absorbed, each
octet is that of the first fragment that brought one, and no more ranges are taken out than went in.

`Holds` says what a group is after any list of fragments. One more fragment
keeps it (`Holds.absorb`), and the induction over the list is then one line.
The count of removals is part of it, which is what bounds the work of a whole
run.
-/
import Wiry.Frag.Absorb

set_option autoImplicit false

namespace Wiry.Frag

open Wiry.Packet SortedMap

/-! ## Ranges taken out -/

/-- The ranges `absorb` takes out before its loop. -/
def removed_below (got : SortedMap ℕ ℕ) (start : ℕ) : ℕ :=
  match got.floor start with
  | some (_, b) => if b ≥ start then 1 else 0
  | none => 0

/-- The ranges its loop takes out, in `n` turns. -/
def removed_loop (start end_ : ℕ) : ℕ → SortedMap ℕ ℕ → ℕ
  | 0, _ => 0
  | n + 1, got =>
    match (got.ceil start).filter (·.1 ≤ end_) with
    | none => 0
    | some (a, _) => removed_loop start end_ n (got.remove a) + 1

/-- The ranges removed below the start are counted. -/
theorem length_absorb_below (got : SortedMap ℕ ℕ) (data : Bytes) (start end_ : ℕ) :
    (absorb_below got data start end_).got.length + removed_below got start = got.length := by
  unfold absorb_below removed_below
  cases hfloor : got.floor start with
  | none => rfl
  | some x =>
    obtain ⟨a, b⟩ := x
    obtain ⟨hmem, -, -⟩ := floor_eq_some hfloor
    dsimp only
    by_cases hb : b ≥ start
    · rw [if_pos hb, if_pos hb]
      exact length_remove hmem
    · rw [if_neg hb, if_neg hb]
      rfl

/-- So are those removed in the loop. -/
theorem length_absorb_loop (src : Bytes) (start end_ n : ℕ) (s : Absorbing) :
    (absorb_loop src start end_ n s).got.length + removed_loop start end_ n s.got
      = s.got.length := by
  induction n generalizing s with
  | zero => exact Nat.add_zero _
  | succ n ih =>
    rw [absorb_loop, removed_loop]
    cases hceil : (s.got.ceil start).filter (·.1 ≤ end_) with
    | none => rfl
    | some x =>
      obtain ⟨a, b⟩ := x
      have hone := length_remove (ceil_eq_some (Option.filter_eq_some_iff.1 hceil).1).1
      have hrest := ih { s with
        data := copy_upto s.data src start s.at_ (min a end_)
        at_ := max s.at_ b
        hi := max s.hi b
        got := s.got.remove a }
      dsimp only at hrest ⊢
      omega

namespace Group

/-- The ranges one `absorb` takes out. It puts one in. -/
def removed (g : Group) (start : ℕ) (src : Bytes) : ℕ :=
  removed_below g.got start +
    removed_loop start (start + src.length) g.got.length
      (absorb_below g.got (resized g.data (start + src.length)) start (start + src.length)).got

/-- One `absorb` after the other. -/
def absorbs (g : Group) (fs : List (ℕ × Bytes)) : Group :=
  fs.foldl (fun g f => g.absorb f.1 f.2) g

/-- The ranges taken out on the way. -/
def removals : Group → List (ℕ × Bytes) → ℕ
  | _, [] => 0
  | g, f :: fs => g.removed f.1 f.2 + removals (g.absorb f.1 f.2) fs

/-- Each range held is one that went in and was not taken out. -/
theorem length_absorb_got {g : Group} (hg : g.got.Separated) (start : ℕ) (src : Bytes) :
    (g.absorb start src).got.length + g.removed start src = g.got.length + 1 := by
  have hbelow := length_absorb_below g.got (resized g.data (start + src.length)) start
    (start + src.length)
  have hloop := length_absorb_loop src start (start + src.length) g.got.length
    (absorb_below g.got (resized g.data (start + src.length)) start (start + src.length))
  obtain ⟨hinv, hbeside⟩ := absorbing_inv hg start src
  -- the range put in starts where none of those left does
  have hkey : ∀ x ∈ (g.absorbing start src).got.entries, x.1 ≠ (g.absorbing start src).lo := by
    intro x hx heq
    have hx2 := hinv.separated.ordered x hx
    have hlo := hinv.lo_le
    have hat := hinv.start_le
    have hhi := hinv.hi_eq
    rcases hbeside x hx with hlow | hhigh
    · omega
    · omega
  have hin : (g.absorb start src).got.length = (g.absorbing start src).got.length + 1 :=
    length_insert hkey
  have hloop' : (g.absorbing start src).got.length + removed_loop start (start + src.length)
      g.got.length
      (absorb_below g.got (resized g.data (start + src.length)) start (start + src.length)).got
      = (absorb_below g.got (resized g.data (start + src.length)) start (start + src.length)).got.length :=
    hloop
  unfold removed
  omega

/-- **What goes out went in.** The ranges held and those taken out on the way are those held before
and one for each fragment. -/
theorem length_absorbs {g : Group} (hg : g.got.Separated) (fs : List (ℕ × Bytes)) :
    (g.absorbs fs).got.length + g.removals fs = g.got.length + fs.length := by
  induction fs generalizing g with
  | nil => rfl
  | cons f fs ih =>
    have hone := length_absorb_got hg f.1 f.2
    have hrest := ih (separated_absorb hg f.1 f.2)
    have hstep : g.absorbs (f :: fs) = (g.absorb f.1 f.2).absorbs fs := rfl
    rw [hstep, removals, List.length_cons]
    omega

/-! ## What is held -/

/-- A fragment has an octet for a position. -/
def Brings (f : ℕ × Bytes) (p : ℕ) : Prop := f.1 ≤ p ∧ p < f.1 + f.2.length

instance (f : ℕ × Bytes) (p : ℕ) : Decidable (Brings f p) := inferInstanceAs (Decidable (_ ∧ _))

/-- What a group holds once `fs` were absorbed into an empty one. -/
structure Holds (g : Group) (fs : List (ℕ × Bytes)) : Prop where
  separated : g.got.Separated
  filled : g.got.Filled
  covered : ∀ p, Covered g.got p ↔ ∃ f ∈ fs, Brings f p
  /-- The first fragment that brought an octet is the one it is of. -/
  octets : ∀ p f, fs.find? (fun f => Brings f p) = some f →
    p < g.data.length ∧ g.data[p]? = f.2[p - f.1]?

/-- What one more fragment makes of a group: its octets where none were before, and one more in the
count of insertions. -/
theorem Holds.absorb {g : Group} {fs : List (ℕ × Bytes)} (h : Holds g fs) (start : ℕ) {src : Bytes}
    (hsrc : src ≠ []) : Holds (g.absorb start src) (fs ++ [(start, src)]) where
  separated := separated_absorb h.separated start src
  filled := filled_absorb h.separated h.filled start hsrc
  covered p := by
    rw [covered_absorb h.separated, h.covered]
    constructor
    · rintro (⟨f, hf, hfp⟩ | hp)
      · exact ⟨f, List.mem_append_left _ hf, hfp⟩
      · exact ⟨(start, src), List.mem_append_right _ (List.mem_singleton_self _), hp⟩
    · rintro ⟨f, hf, hfp⟩
      rcases List.mem_append.1 hf with hf | hf
      · exact .inl ⟨f, hf, hfp⟩
      · rw [List.mem_singleton.1 hf] at hfp
        exact .inr hfp
  octets p f hfind := by
    classical
    rw [absorb_getElem? h.separated, length_absorb h.separated]
    rw [List.find?_append] at hfind
    cases hold : fs.find? (fun f => Brings f p) with
    | some f₀ =>
      -- an octet that is held stays
      rw [hold, Option.some_or] at hfind
      cases hfind
      obtain ⟨hlt, hocts⟩ := h.octets p f hold
      have hcov : Covered g.got p := by
        refine (h.covered p).2 ⟨f, List.mem_of_find?_eq_some hold, ?_⟩
        simpa using List.find?_some hold
      refine ⟨Nat.lt_of_lt_of_le hlt (Nat.le_max_left _ _), ?_⟩
      rw [if_neg fun hnew => hnew.2.2 hcov, resized_getElem?, if_pos hlt, hocts]
    | none =>
      rw [hold, Option.none_or] at hfind
      have hf := List.mem_singleton.1 (List.mem_of_find?_eq_some hfind)
      have hbrings : Brings f p := by simpa using List.find?_some hfind
      subst hf
      obtain ⟨hlo, hhi⟩ := hbrings
      have hfree : ¬ Covered g.got p := by
        rw [h.covered]
        rintro ⟨f', hf', hbrings⟩
        have := List.find?_eq_none.1 hold f' hf'
        simp only [decide_eq_true_eq] at this
        exact this hbrings
      dsimp only at hlo hhi ⊢
      refine ⟨Nat.lt_of_lt_of_le hhi (Nat.le_max_right _ _), ?_⟩
      rw [if_pos ⟨hlo, hhi, hfree⟩]

theorem Holds.absorbs {g : Group} {fs : List (ℕ × Bytes)} (h : Holds g fs) (more : List (ℕ × Bytes))
    (hmore : ∀ f ∈ more, f.2 ≠ []) : Holds (g.absorbs more) (fs ++ more) := by
  induction more generalizing g fs with
  | nil =>
    rw [List.append_nil]
    exact h
  | cons f more ih =>
    have hone := h.absorb f.1 (hmore f List.mem_cons_self)
    have hrest := ih hone fun f' hf' => hmore f' (List.mem_cons_of_mem f hf')
    rw [List.append_assoc] at hrest
    exact hrest

theorem Holds.empty (seq : ℕ) : Holds { seq := seq } [] where
  separated := separated_empty
  filled x hx := absurd hx List.not_mem_nil
  covered p := by
    constructor
    · intro hc
      exact absurd hc (not_covered_empty p)
    · rintro ⟨f, hf, -⟩
      exact absurd hf List.not_mem_nil
  octets p f hfind := absurd hfind nofun

/-- **Absorption.** Whatever is absorbed in whatever order, an empty group comes to hold the longest
stretches of the positions absorbed, none touching the next, with the octet of the first fragment
that brought one at each; no more ranges are taken out than the one each fragment puts in. -/
theorem absorption (seq : ℕ) (fs : List (ℕ × Bytes)) (hfs : ∀ f ∈ fs, f.2 ≠ []) :
    (({ seq := seq } : Group).absorbs fs).got.Separated ∧
      (∀ a b, (a, b) ∈ (({ seq := seq } : Group).absorbs fs).got.entries ↔
        Stretch (fun p => ∃ f ∈ fs, Brings f p) a b) ∧
      (∀ p f, fs.find? (fun f => Brings f p) = some f →
        (({ seq := seq } : Group).absorbs fs).data[p]? = f.2[p - f.1]?) ∧
      ({ seq := seq } : Group).removals fs ≤ fs.length := by
  have hholds := (Holds.empty seq).absorbs fs hfs
  rw [List.nil_append] at hholds
  have hcount := length_absorbs (g := { seq := seq }) separated_empty fs
  have hempty : ({ seq := seq } : Group).got.length = 0 := rfl
  refine ⟨hholds.separated, fun a b => ?_, fun p f hf => (hholds.octets p f hf).2, by omega⟩
  have hsame : Covered (({ seq := seq } : Group).absorbs fs).got = fun p => ∃ f ∈ fs, Brings f p :=
    funext fun p => propext (hholds.covered p)
  rw [hholds.separated.mem_iff_stretch hholds.filled, hsame]

/-- Two fragments one apart, and a third over both and the gap between. -/
theorem absorption_bridged :
    ((({ seq := 0 } : Group).absorbs [(0, [1, 2]), (3, [3]), (1, [9, 8, 7, 6])]).got.Separated ∧
      (∀ a b, (a, b) ∈
          (({ seq := 0 } : Group).absorbs [(0, [1, 2]), (3, [3]), (1, [9, 8, 7, 6])]).got.entries ↔
        Stretch (fun p => ∃ f ∈ [(0, [1, 2]), (3, [3]), (1, [9, 8, 7, 6])], Brings f p) a b) ∧
      (∀ p f, [(0, [1, 2]), (3, [3]), (1, [9, 8, 7, 6])].find? (fun f => Brings f p) = some f →
        (({ seq := 0 } : Group).absorbs [(0, [1, 2]), (3, [3]), (1, [9, 8, 7, 6])]).data[p]?
          = f.2[p - f.1]?) ∧
      ({ seq := 0 } : Group).removals [(0, [1, 2]), (3, [3]), (1, [9, 8, 7, 6])]
        ≤ [(0, [1, 2]), (3, [3]), (1, [9, 8, 7, 6])].length) ∧
    (({ seq := 0 } : Group).absorbs [(0, [1, 2]), (3, [3]), (1, [9, 8, 7, 6])]).data
      = [1, 2, 8, 3, 6] :=
  ⟨absorption 0 [(0, [1, 2]), (3, [3]), (1, [9, 8, 7, 6])] (by decide), by decide⟩

end Group

end Wiry.Frag
