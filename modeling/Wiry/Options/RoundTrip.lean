/-
An option region written back from its items, and walked again.

`Listed` is what a walk yields: at most one option closes the region, and nothing
follows it. Writing such a list back and walking it gives the same codes with the
payloads as they were written, so all that can change is an item's value.
-/
import Wiry.Options.Octets

set_option autoImplicit false

namespace Wiry.Options

open Packet Text

/-- What writing a nested table's region and reading it again takes. -/
structure Level.Law {Sub : Type} [Level Sub] (narrow : Sub → Prop) (region : Sub → Bytes → Prop) :
    Prop where
  again : ∀ s, narrow s → ∀ p b, Level.encode s (Level.walk s p) = .ok b →
    (Level.walk s b = Level.walk s p ↔ region s p)
  nil : ∀ s, narrow s → region s []

namespace OptTable

variable {Sub : Type} (t : OptTable Sub)

/-! ## Regions -/

/-- The options of a region, as a walk can list them. -/
def Listed : List (UInt8 × Bytes) → Prop
  | [] => True
  | x :: rest =>
    (t.is_bare x.1 = true → x.2 = []) ∧
      if some x.1 = t.end_ then t.is_bare x.1 = true ∧ rest = [] else Listed rest

/-- An option as it stands in a region. -/
def emit (x : UInt8 × Bytes) : Bytes :=
  if t.is_bare x.1 then [x.1] else x.1 :: UInt8.ofNat (LenRule.len t.rule x.2.length) :: x.2

/-- What the raw walk returns could have been listed by hand, and there is no more of it than the
guard lets through. -/
theorem walk_raw_from_listed (guard : ℕ) (data : Bytes) :
    t.Listed (t.walk_raw_from guard data) ∧ (t.walk_raw_from guard data).length ≤ guard := by
  -- By the guard, one option a turn.
  induction guard generalizing data with
  | zero => exact ⟨trivial, le_rfl⟩
  | succ guard ih =>
    match data with
    | [] => exact ⟨trivial, Nat.zero_le _⟩
    | code :: rest =>
      rw [walk_raw_from.eq_def]
      dsimp only
      by_cases hend : some code = t.end_
      · rw [if_pos hend]
        by_cases hbare : t.is_bare code = true
        · rw [if_pos hbare, Listed, if_pos hend]
          exact ⟨⟨fun _ => rfl, hbare, rfl⟩, Nat.succ_le_succ (Nat.zero_le _)⟩
        · rw [if_neg hbare]
          exact ⟨trivial, Nat.zero_le _⟩
      · rw [if_neg hend]
        by_cases hbare : t.is_bare code = true
        · rw [if_pos hbare, Listed, if_neg hend]
          exact ⟨⟨fun _ => rfl, (ih rest).1⟩, Nat.succ_le_succ (ih rest).2⟩
        · rw [if_neg hbare]
          match rest with
          | [] => exact ⟨trivial, Nat.zero_le _⟩
          | len :: body =>
            dsimp only
            split
            · exact ⟨trivial, Nat.zero_le _⟩
            · rename_i k _
              split
              · exact ⟨trivial, Nat.zero_le _⟩
              · rw [Listed, if_neg hend]
                exact ⟨⟨fun h => absurd h hbare, (ih (body.drop k)).1⟩,
                  Nat.succ_le_succ (ih (body.drop k)).2⟩

/-- The length octet is read as the length of the payload it was written for. -/
theorem payload_len (rule : LenRule) {n : ℕ} (h : LenRule.len rule n ≤ 255) :
    LenRule.payload rule (UInt8.ofNat (LenRule.len rule n)).toNat = some n := by
  rw [UInt8.toNat_ofNat', Nat.mod_eq_of_lt (by omega)]
  cases rule with
  | WithHeader =>
    show (if n + 2 < 2 then none else some (n + 2 - 2)) = some n
    rw [if_neg (by omega), Nat.add_sub_cancel]
  | PayloadOnly => rfl

/-- **What is written is walked back**, option by option. -/
theorem walk_raw_from_emit {guard : ℕ} {xs : List (UInt8 × Bytes)} (hlisted : t.Listed xs)
    (hfit : ∀ x ∈ xs, t.is_bare x.1 = false → LenRule.len t.rule x.2.length ≤ 255)
    (hguard : xs.length ≤ guard) : t.walk_raw_from guard (xs.flatMap t.emit) = xs := by
  -- By the options; each is read back whole, and the walk goes on behind it.
  induction xs generalizing guard with
  | nil => cases guard <;> rfl
  | cons x xs ih =>
    obtain ⟨guard, rfl⟩ := Nat.exists_eq_add_of_le' (Nat.lt_of_lt_of_le (Nat.succ_pos _) hguard)
    obtain ⟨code, p⟩ := x
    obtain ⟨hempty, hrest⟩ := hlisted
    have hfit_rest := fun y hy => hfit y (List.mem_cons_of_mem _ hy)
    have hguard_rest : xs.length ≤ guard := Nat.le_of_succ_le_succ hguard
    by_cases hbare : t.is_bare code = true
    · have hp : p = [] := hempty hbare
      rw [List.flatMap_cons, emit, if_pos hbare, List.singleton_append, walk_raw_from.eq_def, hp]
      dsimp only
      by_cases hend : some code = t.end_
      · rw [if_pos hend] at hrest
        rw [if_pos hend, if_pos hbare, hrest.2]
      · rw [if_neg hend] at hrest
        rw [if_neg hend, if_pos hbare, ih hrest hfit_rest hguard_rest]
    · have hend : some code ≠ t.end_ := by
        intro hend
        rw [if_pos hend] at hrest
        exact hbare hrest.1
      rw [if_neg hend] at hrest
      have hlen := payload_len t.rule (hfit (code, p) List.mem_cons_self (Bool.eq_false_iff.2 hbare))
      rw [List.flatMap_cons, emit, if_neg hbare, List.cons_append, List.cons_append,
        walk_raw_from.eq_def]
      dsimp only
      rw [if_neg hend, if_neg hbare]
      rw [hlen]
      dsimp only
      rw [if_neg (by rw [List.length_append]; omega), List.take_left, List.drop_left,
        ih hrest hfit_rest hguard_rest]

theorem is_bare_iff (code : UInt8) : t.is_bare code = true ↔ t.shape_of code = .Bare := by
  unfold is_bare shape_of
  cases t.by_code code with
  | none => simp
  | some d => simp

theorem shape_of_some {code : UInt8} {d : OptDesc Sub} (h : t.by_code code = some d) :
    t.shape_of code = d.shape := by
  rw [shape_of, h]
  rfl

/-- A bare option in a listed walk has no payload. -/
theorem listed_bare {t : OptTable Sub} {raw : List (UInt8 × Bytes)} (h : t.Listed raw) :
    ∀ x ∈ raw, t.is_bare x.1 = true → x.2 = [] := by
  induction raw with
  | nil => exact nofun
  | cons x raw ih =>
    refine List.forall_mem_cons.2 ⟨h.1, ?_⟩
    by_cases hend : some x.1 = t.end_
    · rw [Listed, if_pos hend] at h
      rw [h.2.2]
      exact nofun
    · rw [Listed, if_neg hend] at h
      exact ih h.2

/-! ## Writing -/

variable [Level Sub]

theorem payload_of_nested {code : UInt8} {d : OptDesc Sub} {s : Sub} (h : t.by_code code = some d)
    (hs : d.sub = some s) (l : List Item) : t.payload_of code (.Items l) = Level.encode s l := by
  unfold payload_of
  rw [h, Option.bind_some, hs]

theorem payload_of_plain {code : UInt8} {d : OptDesc Sub} (h : t.by_code code = some d)
    (hs : d.sub = none) (v : ItemValue) :
    t.payload_of code v = .ok (Options.payload d.shape v) := by
  unfold payload_of
  rw [h, Option.bind_some, hs, shape_of_some t h]

/-- What an item and the option it is written as have to do with each other. -/
structure Writes (it : Item) (x : UInt8 × Bytes) : Prop where
  code_eq : it.code = x.1.toNat
  bare : t.is_bare x.1 = true → x.2 = []
  payload : t.is_bare x.1 = false → t.payload_of x.1 it.value = .ok x.2
  fits : t.is_bare x.1 = false → LenRule.len t.rule x.2.length ≤ 255

/-- An item that is encoded writes one option, code and payload. -/
theorem encode_one_ok {it : Item} {b : Bytes} (h : t.encode_one it = .ok b) :
    ∃ x, t.Writes it x ∧ b = t.emit x := by
  unfold encode_one at h
  split at h
  · rename_i hcode
    have hnat : it.code = (UInt8.ofNat it.code).toNat := by
      rw [UInt8.toNat_ofNat', Nat.mod_eq_of_lt hcode]
    dsimp only at h
    -- A bare option is its code; any other has a length, which must fit.
    split at h
    · rename_i hshape
      have hbare := (t.is_bare_iff _).2 hshape
      refine ⟨(UInt8.ofNat it.code, []), ⟨hnat, fun _ => rfl, ?_, ?_⟩, ?_⟩
      · exact fun hb => absurd hb (Bool.eq_false_iff.not_left.2 hbare)
      · exact fun hb => absurd hb (Bool.eq_false_iff.not_left.2 hbare)
      · rw [emit, if_pos hbare]
        exact (Except.ok.inj h).symm
    · rename_i hshape
      have hbare : ¬t.is_bare (UInt8.ofNat it.code) = true := fun hb => hshape ((t.is_bare_iff _).1 hb)
      split at h
      · exact absurd h nofun
      · rename_i p hp
        split at h
        · exact absurd h nofun
        · rename_i hlen
          refine ⟨(UInt8.ofNat it.code, p), ⟨hnat, fun hb => absurd hb hbare, fun _ => hp, ?_⟩, ?_⟩
          · exact fun _ => Nat.le_of_not_lt hlen
          · rw [emit, if_neg hbare]
            exact (Except.ok.inj h).symm
  · exact absurd h nofun

/-- A region that could be written is the options it was written from. -/
theorem encode_ok {items : List Item} {b : Bytes} (h : t.encode items = .ok b) :
    ∃ xs, List.Forall₂ t.Writes items xs ∧ b = xs.flatMap t.emit := by
  induction items generalizing b with
  | nil => exact ⟨[], .nil, (Except.ok.inj h).symm⟩
  | cons it items ih =>
    rw [encode] at h
    split at h
    · exact absurd h nofun
    · rename_i octets hone
      split at h
      · exact absurd h nofun
      · rename_i rest hrest
        obtain ⟨x, hx, hoctets⟩ := t.encode_one_ok hone
        obtain ⟨xs, hxs, hall⟩ := ih hrest
        refine ⟨x :: xs, .cons hx hxs, ?_⟩
        rw [← Except.ok.inj h, hoctets, hall, List.flatMap_cons]

theorem decode_code (code : UInt8) (p : Bytes) : (t.decode code p).code = code.toNat := by
  unfold decode
  split <;> rfl

theorem Writes.code_of_decode {code : UInt8} {p : Bytes} {x : UInt8 × Bytes}
    (h : t.Writes (t.decode code p) x) : x.1 = code := by
  apply UInt8.toNat_inj.1
  rw [← h.code_eq, decode_code]

/-- Options written from a walk's items can be listed as that walk lists them. -/
theorem listed_of_writes {raw xs : List (UInt8 × Bytes)}
    (h : List.Forall₂ t.Writes (raw.map fun x => t.decode x.1 x.2) xs) (hraw : t.Listed raw) :
    t.Listed xs := by
  induction raw generalizing xs with
  | nil =>
    rw [List.map_nil, List.forall₂_nil_left_iff] at h
    rw [h]
    trivial
  | cons x raw ih =>
    obtain ⟨y, ys, hy, hys, rfl⟩ := List.forall₂_cons_left_iff.1 h
    have hcode := hy.code_of_decode
    refine ⟨hy.bare, ?_⟩
    rw [hcode]
    -- The end option must be the last of the list, and stays it.
    by_cases hend : some x.1 = t.end_
    · rw [Listed, if_pos hend] at hraw
      rw [if_pos hend]
      refine ⟨hraw.2.1, ?_⟩
      rw [hraw.2.2, List.map_nil, List.forall₂_nil_left_iff] at hys
      exact hys
    · rw [Listed, if_neg hend] at hraw
      rw [if_neg hend]
      exact ih hys hraw.2

/-! ## Reading again -/

/-- The widths of a table's integers are those of a `u64`. -/
def Narrow (inner : Sub → Prop) : Prop :=
  ∀ d ∈ t.opts, (∀ w, d.shape = .Uint w ∨ d.shape = .LooseUint w → w ≤ 8) ∧ ∀ s, d.sub = some s → inner s

/-- An option whose value its own shape can hold. -/
def Survives (inner : Sub → Bytes → Prop) (d : OptDesc Sub) (p : Bytes) : Prop :=
  match d.sub with
  | some s => inner s p
  | none => ∀ w, d.shape = .LooseUint w → be p < 2 ^ (8 * w)

/-- Every option of a region is such a one. -/
def Region (inner : Sub → Bytes → Prop) (data : Bytes) : Prop :=
  ∀ x ∈ t.walk_raw data, ∀ d, t.by_code x.1 = some d → Survives inner d x.2

/-- **A value written in its option's shape reads back, but for a loose integer too wide for it.** -/
theorem value_again {d : OptDesc Sub} (hsub : d.sub = none)
    (hnarrow : ∀ w, d.shape = .Uint w ∨ d.shape = .LooseUint w → w ≤ 8) (p : Bytes) :
    value_in d (Options.payload d.shape (value_in d p)) = value_in d p ↔
      ∀ w, d.shape = .LooseUint w → be p < 2 ^ (8 * w) := by
  obtain ⟨name, code, shape, names, _ | s⟩ := d
  swap
  · exact absurd hsub (Option.some_ne_none _)
  obtain ⟨d, hd⟩ : ∃ d : OptDesc Sub, d = ⟨name, code, shape, names, none⟩ := ⟨_, rfl⟩
  rw [← hd]
  -- whatever is written as the very octets it was read in reads back
  have hraw : ∀ v, value_in d p = v → Options.payload d.shape v = p →
      value_in d (Options.payload d.shape (value_in d p)) = value_in d p := by
    intro v hv hp
    rw [hv, hp, hv]
  subst hd
  cases shape with
  | Bare => exact ⟨fun _ => nofun, fun _ => rfl⟩
  | Empty => exact ⟨fun _ => nofun, fun _ => rfl⟩
  | Uint w =>
    refine ⟨fun _ => nofun, fun _ => ?_⟩
    by_cases hlen : p.length = w
    · apply hraw (.Uint (be p)) (if_pos hlen)
      have hwide := hnarrow w (.inl rfl)
      subst hlen
      exact be_bytes_be hwide
    · exact hraw (.Bytes p) (if_neg hlen) rfl
  | LooseUint w =>
    have hwide := hnarrow w (.inr rfl)
    show ItemValue.Uint (be (be_bytes (be p) w)) = ItemValue.Uint (be p) ↔ _
    rw [ItemValue.Uint.injEq, be_be_bytes, Nat.min_eq_left hwide]
    constructor
    · rintro h _ ⟨⟩
      rw [← h]
      exact Nat.mod_lt _ (Nat.two_pow_pos _)
    · exact fun h => Nat.mod_eq_of_lt (h w rfl)
  | Pair =>
    refine ⟨fun _ => nofun, fun _ => ?_⟩
    by_cases hlen : p.length = 8
    · exact hraw (.Pair (be (p.take 4)) (be (p.drop 4))) (if_pos hlen) (edge_bytes_be hlen)
    · exact hraw (.Bytes p) (if_neg hlen) rfl
  | PairList =>
    refine ⟨fun _ => nofun, fun _ => ?_⟩
    by_cases hlen : p ≠ [] ∧ p.length % 8 = 0
    · apply hraw (.Pairs (pairs p)) (if_pos hlen)
      exact edges_pairs (p.length / 8) (by omega)
    · exact hraw (.Bytes p) (if_neg hlen) rfl
  | Bytes =>
    exact ⟨fun _ => nofun, fun _ => rfl⟩
  | Ipv4List =>
    refine ⟨fun _ => nofun, fun _ => ?_⟩
    exact congrArg ItemValue.Ipv4List (addrs_octets (addrs p))
  | Text =>
    refine ⟨fun _ => nofun, fun _ => ?_⟩
    exact congrArg ItemValue.Text (from_utf8_lossy_as_bytes (from_utf8_lossy p))

section Again

variable {t} {narrow : Sub → Prop} {region : Sub → Bytes → Prop}

/-- One option, written and read again. -/
theorem decode_again (law : Level.Law narrow region) (hnarrow : t.Narrow narrow) {code : UInt8}
    {p : Bytes} {x : UInt8 × Bytes} (hx : t.Writes (t.decode code p) x)
    (hbare : t.is_bare code = true → p = []) :
    t.decode x.1 x.2 = t.decode code p ↔ ∀ d, t.by_code code = some d → Survives region d p := by
  obtain ⟨code', q⟩ := x
  have hcode : code' = code := hx.code_of_decode
  subst hcode
  -- A code without a description keeps its payload; a described one keeps its value.
  cases hd : t.by_code code' with
  | none =>
    have hplain : t.is_bare code' = false := by
      rw [is_bare, hd]
      rfl
    have hq : p = q := by
      have hpayload := hx.payload hplain
      unfold payload_of decode shape_of at hpayload
      rw [hd] at hpayload
      exact Except.ok.inj hpayload
    rw [hq]
    exact ⟨fun _ => nofun, fun _ => rfl⟩
  | some d =>
    have hmem : d ∈ t.opts := List.mem_of_find?_eq_some hd
    obtain ⟨hwide, hinner⟩ := hnarrow d hmem
    have hvalue : t.decode code' q = t.decode code' p ↔ value_in d q = value_in d p := by
      unfold decode
      rw [hd]
      exact ⟨fun h => congrArg Entry.value h, fun h => by dsimp only; rw [h]⟩
    have hone : (∀ d', some d = some d' → Survives region d' p) ↔ Survives region d p :=
      ⟨fun h => h d rfl, fun h d' hd' => Option.some.inj hd' ▸ h⟩
    rw [hvalue, hone]
    -- A bare option has no payload on either side.
    by_cases hb : t.is_bare code' = true
    · have hp := hbare hb
      have hq : q = [] := hx.bare hb
      rw [hp, hq]
      refine ⟨fun _ => ?_, fun _ => rfl⟩
      unfold Survives
      split
      · rename_i s hs
        exact law.nil s (hinner s hs)
      · intro w hw
        rw [is_bare_iff, shape_of_some t hd, hw] at hb
        exact absurd hb nofun
    · have hpayload := hx.payload (Bool.eq_false_iff.2 hb)
      have hitem : (t.decode code' p).value = value_in d p := by
        rw [decode, hd]
      rw [hitem] at hpayload
      -- A nested list goes one level down, where the law is assumed; a leaf is decoded by its
      -- shape.
      cases hs : d.sub with
      | some s =>
        have hitems : ∀ r, value_in d r = .Items (Level.walk s r) := by
          intro r
          rw [value_in, hs]
        have hencode : Level.encode s (Level.walk s p) = .ok q := by
          rwa [hitems, payload_of_nested t hd hs] at hpayload
        rw [hitems, hitems, ItemValue.Items.injEq, Survives, hs]
        exact law.again s (hinner s hs) p q hencode
      | none =>
        have hq : Options.payload d.shape (value_in d p) = q := by
          rw [payload_of_plain t hd hs] at hpayload
          exact Except.ok.inj hpayload
        rw [← hq, Survives, hs]
        exact value_again hs hwide p

/-- A whole region, option by option. -/
theorem map_decode_again (law : Level.Law narrow region) (hnarrow : t.Narrow narrow)
    {raw xs : List (UInt8 × Bytes)}
    (h : List.Forall₂ t.Writes (raw.map fun x => t.decode x.1 x.2) xs)
    (hbare : ∀ x ∈ raw, t.is_bare x.1 = true → x.2 = []) :
    xs.map (fun x => t.decode x.1 x.2) = raw.map (fun x => t.decode x.1 x.2) ↔
      ∀ x ∈ raw, ∀ d, t.by_code x.1 = some d → Survives region d x.2 := by
  induction raw generalizing xs with
  | nil =>
    rw [List.map_nil, List.forall₂_nil_left_iff] at h
    rw [h]
    exact ⟨fun _ => nofun, fun _ => rfl⟩
  | cons x raw ih =>
    obtain ⟨y, ys, hy, hys, rfl⟩ := List.forall₂_cons_left_iff.1 h
    rw [List.map_cons, List.map_cons, List.cons_eq_cons,
      decode_again law hnarrow hy (hbare x List.mem_cons_self),
      ih hys fun z hz => hbare z (List.mem_cons_of_mem _ hz), List.forall_mem_cons]

theorem fits_of_writes {items : List Item} {xs : List (UInt8 × Bytes)}
    (h : List.Forall₂ t.Writes items xs) :
    ∀ x ∈ xs, t.is_bare x.1 = false → LenRule.len t.rule x.2.length ≤ 255 := by
  induction h with
  | nil => exact nofun
  | cons hx _ ih => exact List.forall_mem_cons.2 ⟨hx.fits, ih⟩

/-- **A table that nests lawful ones is lawful.** -/
theorem law (law : Level.Law narrow region) :
    Level.Law (fun t : OptTable Sub => t.Narrow narrow) fun t p => t.Region region p where
  again t hnarrow p b hb := by
    obtain ⟨hlisted, hguard⟩ := t.walk_raw_from_listed 512 p
    obtain ⟨xs, hxs, rfl⟩ := t.encode_ok hb
    have hlength : (t.walk_raw p).length = xs.length := by
      rw [← hxs.length_eq]
      exact (List.length_map _).symm
    have hwalk : t.walk_raw (xs.flatMap t.emit) = xs :=
      t.walk_raw_from_emit (t.listed_of_writes hxs hlisted) (fits_of_writes hxs)
        (hlength ▸ hguard)
    show t.walk _ = t.walk p ↔ _
    rw [walk, hwalk]
    exact map_decode_again law hnarrow hxs (listed_bare hlisted)
  nil t _ := by
    rintro x hx
    exact absurd hx (List.not_mem_nil)

end Again

/-! ## Tables that nest tables -/

/-- There is nothing in `Empty` to write. -/
theorem empty_law : Level.Law (fun _ : Empty => True) fun _ _ => True where
  again := nofun
  nil := nofun

/-- A table's integers are at most eight octets wide, and so are those of the tables it nests. -/
def NarrowOuter (t : OptTable (OptTable Empty)) : Prop := t.Narrow fun s => s.Narrow fun _ => True

/-- No loose integer of a region needs more octets than its option writes, in the region itself or in
a nested one. -/
def Whole (t : OptTable (OptTable Empty)) (data : Bytes) : Prop :=
  t.Region (fun s p => s.Region (fun _ _ => True) p) data

/-- **A region written back walks as before exactly when every loose integer in it fits the width its
option is written in.** -/
theorem rewritten_region_iff (t : OptTable (OptTable Empty)) (hnarrow : t.NarrowOuter)
    (data b : Bytes) (hb : t.encode (t.walk data) = .ok b) :
    t.walk b = t.walk data ↔ t.Whole data :=
  (law (law empty_law)).again t hnarrow data b hb

/-- A table of one option, an octet wide. -/
def overload : OptTable (OptTable Empty) where
  proto := "DHCP".toList
  rule := .PayloadOnly
  end_ := some 255
  opts := [⟨"overload".toList, 52, .LooseUint 1, [], none⟩]

theorem overload_narrow : overload.NarrowOuter := by
  intro d hd
  rw [List.mem_singleton.1 hd]
  refine ⟨?_, nofun⟩
  rintro w (h | h)
  · exact absurd h nofun
  · rw [← Shape.LooseUint.inj h]
    decide

/-- Two octets of it, written back as one. -/
theorem overload_rewritten :
    overload.walk [52, 1, 0] = overload.walk [52, 2, 1, 0] ↔ overload.Whole [52, 2, 1, 0] :=
  rewritten_region_iff overload overload_narrow [52, 2, 1, 0] [52, 1, 0] rfl

/-- **A loose integer wider than its option loses its high octets.** -/
theorem wide_integer_is_cut :
    ¬∀ t : OptTable (OptTable Empty), t.NarrowOuter → ∀ data b,
      t.encode (t.walk data) = .ok b → t.walk b = t.walk data := by
  intro h
  have hsame := h overload overload_narrow [52, 2, 1, 0] [52, 1, 0] rfl
  have hread : overload.walk [52, 2, 1, 0] = [⟨"overload".toList, 52, .Uint 256⟩] := rfl
  have hagain : overload.walk [52, 1, 0] = [⟨"overload".toList, 52, .Uint 0⟩] := rfl
  rw [hread, hagain] at hsame
  have hvalue := congrArg Entry.value (List.cons.inj hsame).1
  exact absurd (ItemValue.Uint.inj hvalue) (by decide)

end OptTable

end Wiry.Options
