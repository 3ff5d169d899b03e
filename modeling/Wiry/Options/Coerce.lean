/-
A caller's integers, encoded and walked back.

`values` are the integers an argument spells and `held` those of a walked value;
`Shape.Holds` says which of them a shape has room for. What `payload` writes
depends on the integers alone, which `Spells` records.
-/
import Wiry.Options.RoundTrip

set_option autoImplicit false

namespace Wiry.Options

open Packet (Bytes)
open Text

/-! ## Integers of an argument -/

mutual

/-- An argument of integers, texts and lists of them. -/
def Spelled : OptArg → Prop
  | .Flag => False
  | .Uint _ => True
  | .Bytes _ => False
  | .Text _ => True
  | .List l => AllSpelled l

def AllSpelled : List OptArg → Prop
  | [] => True
  | e :: l => Spelled e ∧ AllSpelled l

end

mutual

/-- The integers an argument spells, in order. -/
def values (names : List (List Char × ℕ)) : OptArg → List ℕ
  | .Flag => []
  | .Uint n => [n]
  | .Bytes _ => []
  | .Text s => (named_value names s).toList
  | .List l => all_values names l

def all_values (names : List (List Char × ℕ)) : List OptArg → List ℕ
  | [] => []
  | e :: l => values names e ++ all_values names l

end

/-- The names that stand for an option's integers: an edge is always a decimal. -/
def OptDesc.value_names {Sub : Type} (d : OptDesc Sub) : List (List Char × ℕ) :=
  if d.shape = .PairList then [] else d.names

/-- The integers of a walked value. -/
def held : ItemValue → Option (List ℕ)
  | .Uint n => some [n]
  | .Pair a b => some [a, b]
  | .Pairs l => some (l.flatMap fun x => [x.1, x.2])
  | _ => none

/-- The integers a shape has room for. -/
def Shape.Holds : Shape → List ℕ → Prop
  | .Uint w, g => ∃ n, g = [n] ∧ w ≤ 8 ∧ n < 2 ^ (8 * w)
  | .LooseUint w, g => ∃ n, g = [n] ∧ n < 2 ^ (8 * min w 8)
  | .Pair, g => ∃ a b, g = [a, b] ∧ a < 2 ^ 32 ∧ b < 2 ^ 32
  | .PairList, g => g ≠ [] ∧ g.length % 2 = 0 ∧ ∀ v ∈ g, v < 2 ^ 32
  | _, _ => False

/-! ## What coercing makes of them -/

/-- Integers of four octets each. -/
def quads (g : List ℕ) : Bytes := g.flatMap fun n => be_bytes n 4

/-- A value made from these integers: a single one, or any other number of them written alike by
every shape that writes a payload. -/
def Spells (v : ItemValue) (g : List ℕ) : Prop :=
  (∃ n, v = .Uint n ∧ g = [n]) ∨
    g.length ≠ 1 ∧ ∀ shape : Shape, ¬(shape = .Bare ∨ shape = .Empty) → payload shape v = quads g

/-- Words that are accepted are four octets each. -/
theorem wide_bytes_ok (names : List (List Char × ℕ)) {l : List OptArg} {b : Bytes}
    (h : wide_bytes l = .ok b) :
    b = quads (all_values names l) ∧ (all_values names l).length = l.length := by
  induction l generalizing b with
  | nil => exact ⟨(Except.ok.inj h).symm, rfl⟩
  | cons e l ih =>
    cases e with
    | Uint n =>
      rw [wide_bytes] at h
      split at h
      · exact absurd h nofun
      · rename_i rest hrest
        obtain ⟨hb, hlen⟩ := ih hrest
        rw [← Except.ok.inj h, hb]
        refine ⟨?_, ?_⟩
        · simp only [all_values, values, quads, List.singleton_append, List.flatMap_cons]
        · simp only [all_values, values, List.singleton_append, List.length_cons, hlen]
    | _ => exact absurd h nofun

/-- An even number of words taken in couples is the same octets. -/
theorem quads_couples (n : ℕ) {g : List ℕ} (h : g.length = 2 * n) :
    (couples g).flatMap (fun x => be_bytes x.1 4 ++ be_bytes x.2 4) = quads g := by
  induction n generalizing g with
  | zero =>
    rw [List.eq_nil_of_length_eq_zero h]
    rfl
  | succ n ih =>
    match g, h with
    | a :: b :: g, h =>
      have hrest : g.length = 2 * n := by
        rw [List.length_cons, List.length_cons] at h
        omega
      rw [couples, List.flatMap_cons, ih hrest]
      simp only [quads, List.flatMap_cons, List.append_assoc]

mutual

/-- The edges pushed are the values the argument spells. -/
theorem push_uints_ok : ∀ (arg : OptArg) (out edges : List ℕ), Spelled arg →
    push_uints arg out = .ok edges → edges = out ++ values [] arg
  | .Uint n, out, edges, _, h => by
    rw [push_uints] at h
    exact (Except.ok.inj h).symm
  | .Text s, out, edges, _, h => by
    rw [push_uints] at h
    split at h
    · exact absurd h nofun
    · rename_i n hn
      rw [← Except.ok.inj h, values, named_value, List.find?_nil, hn]
      rfl
  | .List l, out, edges, hs, h => by
    rw [push_uints] at h
    exact push_all_ok l out edges hs h

/-- So are those of a list of arguments. -/
theorem push_all_ok : ∀ (l : List OptArg) (out edges : List ℕ), AllSpelled l →
    push_all l out = .ok edges → edges = out ++ all_values [] l
  | [], out, edges, _, h => by
    rw [push_all] at h
    rw [← Except.ok.inj h, all_values, List.append_nil]
  | e :: l, out, edges, hs, h => by
    rw [push_all] at h
    split at h
    · exact absurd h nofun
    · rename_i out' hout
      rw [push_all_ok l out' edges hs.2 h, push_uints_ok e out out' hs.1 hout, all_values,
        List.append_assoc]

end

/-- **What `num_value` accepts spells the caller's integers.** -/
theorem num_value_spells {shape : Shape} {names : List (List Char × ℕ)} {arg : OptArg} {v : ItemValue}
    (hs : Spelled arg) (h : num_value shape names arg = .ok v) : Spells v (values names arg) := by
  -- By the recursion of the source, one case for each shape of argument.
  induction arg using num_value.induct shape names with
  | case1 => exact hs.elim
  | case2 n => exact .inl ⟨n, (Except.ok.inj h).symm, rfl⟩
  | case3 => exact hs.elim
  | case4 s hnone =>
    rw [num_value, hnone] at h
    exact absurd h nofun
  | case5 s n hsome =>
    rw [num_value, hsome] at h
    rw [values, hsome]
    exact .inl ⟨n, (Except.ok.inj h).symm, rfl⟩
  | case6 one ih =>
    -- A list of one stands for its member.
    have hone := ih hs.1 h
    rwa [values, all_values, all_values, List.append_nil]
  | case7 a b hshape _ =>
    subst hshape
    rw [num_value] at h
    · rw [← Except.ok.inj h]
      have hvalues : values names (.List [.Uint a, .Uint b]) = [a, b] := rfl
      rw [hvalues]
      refine .inr ⟨nofun, fun shape hplain => ?_⟩
      rw [payload, if_neg hplain]
      rfl
  | case8 l e hwide hpair hone =>
    rw [num_value, hwide] at h
    · exact absurd h nofun
    · exact hone
    · exact hpair
  -- Any other list is written wide, four octets a number.
  | case9 l p hwide hpair hone =>
    obtain ⟨hp, hlen⟩ := wide_bytes_ok names hwide
    rw [num_value, hwide] at h
    · rw [← Except.ok.inj h]
      refine .inr ⟨?_, fun shape hplain => ?_⟩
      · intro hsingle
        rw [values, hlen, List.length_eq_one_iff] at hsingle
        obtain ⟨one, rfl⟩ := hsingle
        exact hone one rfl
      · rw [payload, if_neg hplain]
        exact hp
    · exact hone
    · exact hpair

/-- An accepted pair spells its argument's two values. -/
theorem pair_value_spells {arg : OptArg} {v : ItemValue} (hs : Spelled arg)
    (h : pair_value arg = .ok v) : Spells v (values [] arg) := by
  have hedges : ∃ edges, push_uints arg [] = .ok edges ∧ edges.length % 2 = 0 ∧
      v = .Pairs (couples edges) := by
    unfold pair_value at h
    split at h
    · exact hs.elim
    · split at h
      · exact absurd h nofun
      · rename_i edges hedges
        split at h
        · exact absurd h nofun
        · rename_i heven
          exact ⟨edges, hedges, not_not.1 heven, (Except.ok.inj h).symm⟩
  obtain ⟨edges, hpush, heven, rfl⟩ := hedges
  have hvalues : edges = values [] arg := push_uints_ok arg [] edges hs hpush
  rw [← hvalues]
  refine .inr ⟨by omega, fun shape hshape => ?_⟩
  rw [← quads_couples (edges.length / 2) (by omega)]
  exact if_neg hshape

/-- The shapes that hold integers. -/
def Shape.Integral : Shape → Prop
  | .Uint _ | .LooseUint _ | .Pair | .PairList => True
  | _ => False

/-- An accepted value spells its argument's, for every shape of integers. -/
theorem value_of_spells {Sub : Type} {d : OptDesc Sub} (hshape : d.shape.Integral) {arg : OptArg} {v : ItemValue}
    (hs : Spelled arg) (h : value_of d.shape d.names arg = .ok v) :
    Spells v (values d.value_names arg) := by
  unfold OptDesc.value_names
  unfold value_of at h
  -- By the option's shape: pairs of numbers, or one number of some width.
  cases hd : d.shape with
  | PairList =>
    rw [hd] at h
    rw [if_pos rfl]
    exact pair_value_spells hs h
  | Uint w =>
    rw [hd] at h
    rw [if_neg nofun]
    exact num_value_spells hs h
  | LooseUint w =>
    rw [hd] at h
    rw [if_neg nofun]
    exact num_value_spells hs h
  | Pair =>
    rw [hd] at h
    rw [if_neg nofun]
    exact num_value_spells hs h
  | _ =>
    rw [hd] at hshape
    exact hshape.elim

/-! ## Walking it back -/

@[simp] theorem length_quads (g : List ℕ) : (quads g).length = 4 * g.length := by
  induction g with
  | nil => rfl
  | cons n g ih =>
    have hcons : quads (n :: g) = be_bytes n 4 ++ quads g := List.flatMap_cons
    rw [hcons, List.length_append, ih, length_be_bytes, List.length_cons]
    omega

/-- Couples flattened are the list they were taken from, each number cut to 32 bits. -/
theorem couples_flatten (n : ℕ) {g : List ℕ} (h : g.length = 2 * n) :
    (couples g).flatMap (fun x => [x.1 % 2 ^ 32, x.2 % 2 ^ 32]) = g.map (· % 2 ^ 32) := by
  induction n generalizing g with
  | zero =>
    rw [List.eq_nil_of_length_eq_zero h]
    rfl
  | succ n ih =>
    match g, h with
    | a :: b :: g, h =>
      have hrest : g.length = 2 * n := by
        rw [List.length_cons, List.length_cons] at h
        omega
      rw [couples, List.flatMap_cons, ih hrest]
      rfl

theorem map_mod_eq_iff (m : ℕ) (hm : 0 < m) (g : List ℕ) : g.map (· % m) = g ↔ ∀ v ∈ g, v < m := by
  induction g with
  | nil => exact ⟨fun _ => nofun, fun _ => rfl⟩
  | cons n g ih =>
    rw [List.map_cons, List.cons_eq_cons, ih, List.forall_mem_cons]
    refine and_congr_left fun _ => ⟨fun h => ?_, Nat.mod_eq_of_lt⟩
    rw [← h]
    exact Nat.mod_lt _ hm

/-- The pairs of a run of integers, each as its low 32 bits. -/
theorem held_pairs {g : List ℕ} (h : g.length % 2 = 0) :
    held (.Pairs (pairs (quads g))) = some (g.map (· % 2 ^ 32)) := by
  have hlen : g.length = 2 * (g.length / 2) := by omega
  have hedges := pairs_edges (couples g)
  rw [show (couples g).flatMap edge_bytes = quads g from quads_couples _ hlen] at hedges
  rw [held, hedges, List.flatMap_map, ← couples_flatten _ hlen]

section Walk

variable {Sub : Type} [Level Sub]

open OptTable

/-- **A single integer is walked back exactly when its shape holds it.** -/
theorem held_uint {d : OptDesc Sub} (hsub : d.sub = none) (n : ℕ) :
    held (value_in d (payload d.shape (.Uint n))) = some [n] ↔ d.shape.Holds [n] := by
  have hlen := length_be_bytes n d.shape.width
  unfold value_in
  rw [hsub]
  dsimp only
  -- By the shape; a number is read back from its own width, and the lists take eight octets.
  cases hshape : d.shape with
  | Uint w =>
    show held (if (be_bytes n w).length = w then .Uint (be (be_bytes n w)) else .Bytes (be_bytes n w)) =
      some [n] ↔ ∃ m, [n] = [m] ∧ w ≤ 8 ∧ m < 2 ^ (8 * w)
    rw [length_be_bytes]
    by_cases hw : w ≤ 8
    · rw [if_pos (Nat.min_eq_left hw), be_be_bytes, Nat.min_eq_left hw]
      constructor
      · intro h
        have hn : n % 2 ^ (8 * w) = n := (List.cons.inj (Option.some.inj h)).1
        refine ⟨n, rfl, hw, ?_⟩
        rw [← hn]
        exact Nat.mod_lt _ (Nat.two_pow_pos _)
      · rintro ⟨m, hm, -, hlt⟩
        rw [(List.cons.inj hm).1, Nat.mod_eq_of_lt hlt]
        rfl
    · rw [if_neg (by omega)]
      exact ⟨nofun, fun ⟨_, _, h, _⟩ => absurd h hw⟩
  | LooseUint w =>
    show held (.Uint (be (be_bytes n w))) = some [n] ↔ ∃ m, [n] = [m] ∧ m < 2 ^ (8 * min w 8)
    rw [be_be_bytes]
    constructor
    · intro h
      have hn : n % 2 ^ (8 * min w 8) = n := (List.cons.inj (Option.some.inj h)).1
      refine ⟨n, rfl, ?_⟩
      rw [← hn]
      exact Nat.mod_lt _ (Nat.two_pow_pos _)
    · rintro ⟨m, hm, hlt⟩
      rw [(List.cons.inj hm).1, Nat.mod_eq_of_lt hlt]
      rfl
  | Pair =>
    have height : (payload .Pair (.Uint n)).length = 8 := length_be_bytes n 8
    dsimp only
    rw [if_pos height]
    constructor
    · intro h
      exact absurd (List.cons.inj (Option.some.inj h)).2 (List.cons_ne_nil _ _)
    · rintro ⟨_, _, h, -⟩
      exact absurd (List.cons.inj h).2.symm (List.cons_ne_nil _ _)
  | PairList =>
    have height : (payload .PairList (.Uint n)).length = 8 := length_be_bytes n 8
    have hnil : payload .PairList (.Uint n) ≠ [] := by
      intro h
      rw [h] at height
      exact absurd height nofun
    have hone : pairs (payload .PairList (.Uint n)) =
        [(be ((payload .PairList (.Uint n)).take 4), be ((payload .PairList (.Uint n)).drop 4))] := by
      have h := pairs_cons _ height []
      rwa [List.append_nil] at h
    dsimp only
    rw [if_pos ⟨hnil, by rw [height]⟩, hone]
    constructor
    · intro h
      exact absurd (List.cons.inj (Option.some.inj h)).2 (List.cons_ne_nil _ _)
    · rintro ⟨-, h, -⟩
      exact absurd h Nat.one_ne_zero
  | _ => exact ⟨nofun, fun h => h.elim⟩

/-- **So are integers of four octets each.** -/
theorem held_quads {d : OptDesc Sub} (hsub : d.sub = none) {g : List ℕ} (hg : g.length ≠ 1)
    {p : Bytes} (hp : ¬(d.shape = .Bare ∨ d.shape = .Empty) → p = quads g) :
    held (value_in d p) = some g ↔ d.shape.Holds g := by
  have hsingle : ∀ n, g ≠ [n] := by
    rintro n rfl
    exact hg rfl
  unfold value_in
  rw [hsub]
  dsimp only
  -- By the shape; several numbers are never one, so only the shapes of pairs can hold them.
  cases hshape : d.shape with
  | Bare => exact ⟨nofun, fun h => h.elim⟩
  | Empty => exact ⟨nofun, fun h => h.elim⟩
  | Uint w =>
    refine ⟨fun h => ?_, fun ⟨n, h, _⟩ => absurd h (hsingle n)⟩
    dsimp only at h
    split at h
    · exact absurd (Option.some.inj h).symm (hsingle _)
    · exact absurd h nofun
  | LooseUint w =>
    exact ⟨fun h => absurd (Option.some.inj h).symm (hsingle _), fun ⟨n, h, _⟩ => absurd h (hsingle n)⟩
  | Pair =>
    rw [hp (by rw [hshape]; exact nofun)]
    dsimp only
    rw [length_quads]
    by_cases htwo : g.length = 2
    · match g, htwo with
      | [a, b], _ =>
        have hedges := be_edges (a, b)
        have hquads : quads [a, b] = edge_bytes (a, b) := rfl
        rw [if_pos (show 4 * [a, b].length = 8 from rfl), hquads, hedges.1, hedges.2]
        have hmod := map_mod_eq_iff (2 ^ 32) (by decide) [a, b]
        rw [List.forall_mem_cons, List.forall_mem_singleton] at hmod
        show some [a % 2 ^ 32, b % 2 ^ 32] = some [a, b] ↔ _
        rw [Option.some.injEq]
        refine hmod.trans ⟨fun h => ⟨a, b, rfl, h⟩, ?_⟩
        rintro ⟨_, _, ⟨⟩, h⟩
        exact h
    · rw [if_neg (by omega)]
      refine ⟨nofun, ?_⟩
      rintro ⟨a, b, rfl, -⟩
      exact absurd rfl htwo
  | PairList =>
    rw [hp (by rw [hshape]; exact nofun)]
    dsimp only
    have hnil : quads g ≠ [] ↔ g ≠ [] := by
      rw [← List.length_pos_iff, ← List.length_pos_iff, length_quads]
      omega
    by_cases hwhole : quads g ≠ [] ∧ (quads g).length % 8 = 0
    · rw [if_pos hwhole]
      have heven : g.length % 2 = 0 := by
        have h := hwhole.2
        rw [length_quads] at h
        omega
      rw [held_pairs heven, Option.some.injEq, map_mod_eq_iff _ (by decide)]
      exact ⟨fun h => ⟨hnil.1 hwhole.1, heven, h⟩, fun h => h.2.2⟩
    · rw [if_neg hwhole]
      refine ⟨nofun, fun ⟨hne, heven, _⟩ => absurd ⟨hnil.2 hne, ?_⟩ hwhole⟩
      rw [length_quads]
      omega
  | _ => exact ⟨nofun, fun h => h.elim⟩

/-- A spelled value is walked back exactly when the shape it is written in holds its integers. -/
theorem held_spells {d : OptDesc Sub} (hsub : d.sub = none) {v : ItemValue} {g : List ℕ}
    (h : Spells v g) : held (value_in d (payload d.shape v)) = some g ↔ d.shape.Holds g := by
  rcases h with ⟨n, rfl, rfl⟩ | ⟨hg, hp⟩
  · exact held_uint hsub n
  · exact held_quads hsub hg (hp d.shape)

/-! ## A single option -/

/-- A built region of one option. -/
theorem build_single {t : OptTable Sub} {name : List Char} {arg : OptArg} {b : Bytes}
    (h : t.build [(name, arg)] = .ok b) :
    ∃ it x, t.item name arg = .ok it ∧ t.Writes it x ∧ b = t.emit x := by
  unfold build at h
  cases hitem : t.item name arg with
  | error e =>
    rw [List.mapM_cons, hitem] at h
    exact absurd h nofun
  | ok it =>
    rw [List.mapM_cons, hitem] at h
    have hencode : t.encode [it] = .ok b := h
    obtain ⟨xs, hxs, rfl⟩ := t.encode_ok hencode
    obtain ⟨x, ys, hx, hys, rfl⟩ := List.forall₂_cons_left_iff.1 hxs
    rw [List.forall₂_nil_left_iff] at hys
    refine ⟨it, x, rfl, hx, ?_⟩
    rw [hys, List.flatMap_cons, List.flatMap_nil, List.append_nil]

/-- A region of one option walks as that option, unless its code closes the region. -/
theorem walk_single {t : OptTable Sub} {it : Item} {x : UInt8 × Bytes} (hx : t.Writes it x) :
    t.walk (t.emit x) = if some x.1 = t.end_ ∧ t.is_bare x.1 = false then []
      else [t.decode x.1 x.2] := by
  -- The end option stops the walk, unless it is bare and is itself an item.
  by_cases hend : some x.1 = t.end_
  · have hcode : ∃ rest, t.emit x = x.1 :: rest := by
      unfold emit
      split
      · exact ⟨[], rfl⟩
      · exact ⟨_, rfl⟩
    obtain ⟨rest, hrest⟩ := hcode
    have hraw : t.walk_raw (t.emit x) = if t.is_bare x.1 then [(x.1, [])] else [] := by
      rw [hrest, walk_raw, walk_raw_from.eq_def]
      exact if_pos hend
    rw [walk, hraw]
    by_cases hbare : t.is_bare x.1 = true
    · rw [if_pos hbare, if_neg (fun h => Bool.false_ne_true (h.2.symm.trans hbare)), hx.bare hbare]
      rfl
    · rw [if_neg hbare, if_pos ⟨hend, Bool.eq_false_iff.2 hbare⟩]
      rfl
  -- Any other is read back by the round trip of a list of one.
  · have hlisted : t.Listed [x] := by
      rw [Listed, if_neg hend]
      exact ⟨hx.bare, trivial⟩
    have hone : t.walk_raw ([x].flatMap t.emit) = [x] := by
      refine t.walk_raw_from_emit hlisted (fun y hy hb => ?_) (Nat.succ_le_succ (Nat.zero_le 511))
      rw [List.mem_singleton.1 hy] at hb ⊢
      exact hx.fits hb
    rw [List.flatMap_cons, List.flatMap_nil, List.append_nil] at hone
    rw [walk, hone, if_neg (fun h => hend h.1)]
    rfl

/-- **An option built from integers walks back as those integers exactly when it is plain and its shape
holds them.** -/
theorem built_integers_iff {t : OptTable Sub} {name : List Char} {d : OptDesc Sub}
    (hname : t.by_name name = some d) (hshape : d.shape.Integral)
    (hnested : d.sub ≠ none → t.by_code d.code = some d) {arg : OptArg} (hs : Spelled arg) {b : Bytes}
    (hb : t.build [(name, arg)] = .ok b) :
    (∃ it, t.walk b = [it] ∧ it.code = d.code.toNat ∧ held it.value = some (values d.value_names arg)) ↔
      t.end_ ≠ some d.code ∧ d.sub = none ∧
        ∃ d', t.by_code d.code = some d' ∧ d'.sub = none ∧ d'.shape.Holds (values d.value_names arg) := by
  obtain ⟨it, x, hitem, hx, rfl⟩ := build_single hb
  obtain ⟨v, hv, hit⟩ : ∃ v, coerce d arg = .ok v ∧ it = ⟨d.name, d.code.toNat, v⟩ := by
    unfold OptTable.item at hitem
    split at hitem
    · cases hitem
    · rw [hname] at hitem
      dsimp only at hitem
      cases hvalue : coerce d arg with
      | error e =>
        rw [hvalue] at hitem
        cases hitem
      | ok v =>
        rw [hvalue] at hitem
        exact ⟨v, rfl, (Except.ok.inj hitem).symm⟩
  obtain ⟨code, q⟩ := x
  have hcode : code = d.code := by
    apply UInt8.toNat_inj.1
    rw [← hx.code_eq, hit]
  subst hcode
  obtain ⟨d', hd'⟩ : ∃ d', t.by_code d.code = some d' := by
    apply Option.isSome_iff_exists.1
    exact List.find?_isSome.2 ⟨d, List.mem_of_find?_eq_some hname, beq_self_eq_true _⟩
  have hvalue : ∀ p, (t.decode d.code p).value = value_in d' p := by
    intro p
    rw [decode, hd']
  have hnone : ∀ s, d'.sub = some s → ∀ p, held (value_in d' p) = none := by
    intro s hs' p
    rw [value_in, hs']
    rfl
  rw [walk_single hx]
  by_cases hend : t.end_ = some d.code
  · refine ⟨?_, fun h => absurd hend h.1⟩
    rintro ⟨it', hwalk, -, hheld⟩
    split at hwalk
    · cases hwalk
    · rename_i hopen
      -- a bare end code is an option, of no value
      have hbare : t.is_bare d.code = true := by
        by_contra hb'
        exact hopen ⟨hend.symm, Bool.eq_false_iff.2 hb'⟩
      rw [is_bare_iff, shape_of_some t hd'] at hbare
      rw [← (List.cons.inj hwalk).1, hvalue] at hheld
      cases hs' : d'.sub with
      | some s =>
        rw [hnone s hs'] at hheld
        cases hheld
      | none =>
        rw [value_in, hs', hbare] at hheld
        cases hheld
  · rw [if_neg fun h => hend h.1.symm]
    have hread : (∃ it', [t.decode d.code q] = [it'] ∧ it'.code = d.code.toNat ∧
        held it'.value = some (values d.value_names arg)) ↔
          held (value_in d' q) = some (values d.value_names arg) := by
      constructor
      · rintro ⟨it', hit', -, hheld⟩
        rwa [← (List.cons.inj hit').1, hvalue] at hheld
      · intro hheld
        exact ⟨_, rfl, t.decode_code _ _, by rw [hvalue, hheld]⟩
    rw [hread]
    cases hs' : d'.sub with
    | some s =>
      rw [hnone s hs']
      refine ⟨by rintro ⟨⟩, ?_⟩
      rintro ⟨-, -, d'', hd'', hsub, -⟩
      rw [← Option.some.inj (hd'.symm.trans hd''), hs'] at hsub
      exact absurd hsub (Option.some_ne_none _)
    | none =>
      have hplain : d.sub = none := by
        by_contra hne
        rw [hd', Option.some.injEq] at hnested
        exact hne ((hnested hne) ▸ hs')
      have hq : q = Options.payload d'.shape v := by
        by_cases hbare : t.is_bare d.code = true
        · have hempty : q = [] := hx.bare hbare
          rw [is_bare_iff, shape_of_some t hd'] at hbare
          rw [hempty, hbare]
          rfl
        · have hpayload := hx.payload (Bool.eq_false_iff.2 hbare)
          rw [hit, payload_of_plain t hd' hs'] at hpayload
          exact (Except.ok.inj hpayload).symm
      rw [coerce, hplain] at hv
      rw [hq, held_spells hs' (value_of_spells hshape hs hv)]
      constructor
      · exact fun h => ⟨hend, hplain, d', hd', hs', h⟩
      · rintro ⟨-, -, d'', hd'', -, h⟩
        rwa [Option.some.inj (hd'.symm.trans hd'')]

end Walk

/-- The option of a TCP segment's size. -/
def tcp_options : OptTable Empty where
  proto := "TCP".toList
  rule := .WithHeader
  end_ := some 0
  opts := [⟨"EOL".toList, 0, .Bare, [], none⟩, ⟨"MSS".toList, 2, .Uint 2, [], none⟩]

/-- A segment size of more than two octets. -/
theorem mss_built :
    (∃ it, tcp_options.walk [2, 4, 17, 112] = [it] ∧ it.code = 2 ∧ held it.value = some [70000]) ↔
      tcp_options.end_ ≠ some 2 ∧ (none : Option Empty) = none ∧
        ∃ d', tcp_options.by_code 2 = some d' ∧ d'.sub = none ∧ d'.shape.Holds [70000] :=
  built_integers_iff (show tcp_options.by_name "MSS".toList = some ⟨"MSS".toList, 2, .Uint 2, [], none⟩
    from rfl) trivial (fun h => absurd rfl h) (show Spelled (.Uint 70000) from trivial) rfl

/-- **An integer too wide for its option is cut, not refused.** -/
theorem wide_value_is_cut :
    ¬∀ (t : OptTable Empty) (name : List Char) (d : OptDesc Empty) (arg : OptArg) (b : Bytes),
      t.by_name name = some d → d.shape.Integral → Spelled arg → t.build [(name, arg)] = .ok b →
        ∃ it, t.walk b = [it] ∧ it.code = d.code.toNat ∧
          held it.value = some (values d.value_names arg) := by
  intro h
  obtain ⟨it, hwalk, -, hheld⟩ := h tcp_options "MSS".toList ⟨"MSS".toList, 2, .Uint 2, [], none⟩
    (.Uint 70000) [2, 4, 17, 112] rfl trivial trivial rfl
  have hread : tcp_options.walk [2, 4, 17, 112] = [⟨"MSS".toList, 2, .Uint 4464⟩] := rfl
  rw [hread] at hwalk
  rw [← (List.cons.inj hwalk).1] at hheld
  exact absurd (List.cons.inj (Option.some.inj hheld)).1 (by decide)

end Wiry.Options
