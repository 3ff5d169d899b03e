/-
How far `read_name` of `crates/wiry-core/src/layers/dns.rs` can run, and what its text keeps.

One turn of the loop either takes a label, which is charged against the 255 octets, or follows a
pointer strictly backwards, which is charged against the 64 jumps. A label may step forwards again,
so it is the two charges together that bound the run, and not the offset.
-/
import Wiry.Dns.Records
import Wiry.Options.Octets

set_option autoImplicit false

namespace Wiry.Dns

open Packet (Bytes slice)
open Text (from_utf8_lossy)
open Options (as_bytes from_utf8_lossy_as_bytes)

/-! ## One turn of the loop -/

inductive Turn where
  | go (w : NameWalk)
  | done (r : Option (List Bytes × ℕ))

/-- The body of `read_name`'s loop. -/
def turn (msg : Bytes) (w : NameWalk) : Turn :=
  match msg[w.at_]? with
  | none => .done none
  | some len =>
    if len &&& 0xC0 = 0 then
      if len = 0 then .done (some (w.labels, w.end_.getD (w.at_ + 1)))
      else
        let start := w.at_ + 1
        let stop := start + len.toNat
        if msg.length < stop then .done none
        else if MAX_NAME_OCTETS < w.octets + (len.toNat + 1) then .done none
        else
          .go
            { w with
              labels := w.labels ++ [slice msg start stop]
              at_ := stop
              octets := w.octets + (len.toNat + 1) }
    else if len &&& 0xC0 = 0xC0 then
      match msg[w.at_ + 1]? with
      | none => .done none
      | some lo =>
        let target := (len &&& 0x3F).toNat * 256 + lo.toNat
        if MAX_JUMPS < w.jumps + 1 ∨ w.at_ ≤ target then .done none
        else
          .go
            { w with
              at_ := target
              end_ := some (w.end_.getD (w.at_ + 2))
              jumps := w.jumps + 1 }
    else .done none

/-- The loop is its turns. -/
theorem read_name_loop_turn (msg : Bytes) (w : NameWalk) :
    read_name_loop msg w =
      match turn msg w with
      | .go w' => read_name_loop msg w'
      | .done r => r := by
  rw [read_name_loop.eq_def, turn]
  -- By the octet read: a label, the root, a pointer, or one of the reserved forms.
  cases msg[w.at_]? with
  | none => rfl
  | some len =>
    dsimp only
    by_cases hplain : len &&& 0xC0 = 0
    · simp only [if_pos hplain]
      split
      · rfl
      · split
        · rfl
        · split <;> rfl
    · simp only [if_neg hplain]
      split
      · cases msg[w.at_ + 1]? with
        | none => rfl
        | some lo =>
          dsimp only
          split <;> rfl
      · rfl

/-- A label of `n` octets is taken, and charged with its length. -/
structure Consumes (msg : Bytes) (w w' : NameWalk) (n : ℕ) : Prop where
  pos : 0 < n
  labels : w'.labels = w.labels ++ [slice msg (w.at_ + 1) (w.at_ + 1 + n)]
  at_ : w'.at_ = w.at_ + 1 + n
  room : w'.at_ ≤ msg.length
  octets : w'.octets = w.octets + (n + 1)
  limit : w'.octets ≤ MAX_NAME_OCTETS
  jumps : w'.jumps = w.jumps

/-- A pointer is followed, strictly backwards. -/
structure JumpsBack (w w' : NameWalk) : Prop where
  labels : w'.labels = w.labels
  back : w'.at_ < w.at_
  jumps : w'.jumps = w.jumps + 1
  limit : w'.jumps ≤ MAX_JUMPS
  octets : w'.octets = w.octets

/-- **A turn that goes on takes a label or jumps back.** -/
theorem turn_cases {msg : Bytes} {w w' : NameWalk} (h : turn msg w = .go w') :
    (∃ n, Consumes msg w w' n) ∨ JumpsBack w w' := by
  -- Along the guards of a turn: what goes on has read a whole label or jumped.
  unfold turn at h
  cases hlen : msg[w.at_]? with
  | none => simp [hlen] at h
  | some len =>
    simp only [hlen] at h
    by_cases hplain : len &&& 0xC0 = 0
    · simp only [if_pos hplain] at h
      by_cases hroot : len = 0
      · simp [hroot] at h
      have hpos : 0 < len.toNat := by
        apply Nat.pos_of_ne_zero
        intro hzero
        exact hroot (UInt8.toNat_inj.1 hzero)
      rw [if_neg hroot] at h
      by_cases hroom : msg.length < w.at_ + 1 + len.toNat
      · simp [hroom] at h
      rw [if_neg hroom] at h
      by_cases hlimit : MAX_NAME_OCTETS < w.octets + (len.toNat + 1)
      · simp [hlimit] at h
      rw [if_neg hlimit, Turn.go.injEq] at h
      subst h
      exact .inl ⟨len.toNat, hpos, rfl, rfl, Nat.le_of_not_lt hroom, rfl, Nat.le_of_not_lt hlimit, rfl⟩
    · simp only [if_neg hplain] at h
      by_cases hmarked : len &&& 0xC0 = 0xC0
      · simp only [if_pos hmarked] at h
        cases hlo : msg[w.at_ + 1]? with
        | none => simp [hlo] at h
        | some lo =>
          simp only [hlo] at h
          by_cases hstop : MAX_JUMPS < w.jumps + 1 ∨ w.at_ ≤ (len &&& 0x3F).toNat * 256 + lo.toNat
          · rw [if_pos hstop] at h
            cases h
          rw [if_neg hstop, Turn.go.injEq] at h
          subst h
          rw [not_or] at hstop
          exact .inr ⟨rfl, Nat.lt_of_not_le hstop.2, rfl, Nat.le_of_not_lt hstop.1, rfl⟩
      · simp [hmarked] at h

/-! ## The whole loop -/

/-- `n` turns of the loop lead from one walk to another. -/
inductive Turns (msg : Bytes) : ℕ → NameWalk → NameWalk → Prop
  | none (w : NameWalk) : Turns msg 0 w w
  | more {n : ℕ} {w w' w'' : NameWalk} (first : turn msg w = .go w') (rest : Turns msg n w' w'') :
      Turns msg (n + 1) w w''

/-- Turns a walk may still take: a jump each, and a label for every two octets. -/
def NameWalk.budget (w : NameWalk) : ℕ := (MAX_JUMPS - w.jumps) + (MAX_NAME_OCTETS - w.octets) / 2

/-- Every turn that goes on spends some of the budget. -/
theorem budget_lt {msg : Bytes} {w w' : NameWalk} (h : turn msg w = .go w') : w'.budget < w.budget := by
  unfold NameWalk.budget
  rcases turn_cases h with ⟨n, htaken⟩ | hback
  · have hpos := htaken.pos
    have hoctets := htaken.octets
    have hlimit := htaken.limit
    rw [htaken.jumps]
    omega
  · have hjumps := hback.jumps
    have hlimit := hback.limit
    rw [hback.octets]
    omega

theorem turns_le {msg : Bytes} {n : ℕ} {w w' : NameWalk} (h : Turns msg n w w') :
    n + w'.budget ≤ w.budget := by
  induction h with
  | none w => omega
  | more first rest ih =>
    have hlt := budget_lt first
    omega

/-- The loop ends, within its budget. -/
theorem read_name_loop_ends (msg : Bytes) (w : NameWalk) :
    ∃ n w' r, Turns msg n w w' ∧ turn msg w' = .done r ∧ read_name_loop msg w = r := by
  induction hk : w.budget using Nat.strongRecOn generalizing w with
  | ind k ih =>
    cases hturn : turn msg w with
    | done r =>
      refine ⟨0, w, r, .none w, hturn, ?_⟩
      rw [read_name_loop_turn, hturn]
    | go w' =>
      have hlt := budget_lt hturn
      rw [hk] at hlt
      obtain ⟨n, w'', r, hturns, hdone, hr⟩ := ih _ hlt w' rfl
      refine ⟨n + 1, w'', r, .more hturn hturns, hdone, ?_⟩
      rw [read_name_loop_turn, hturn]
      exact hr

/-- What the walk has charged is what its labels take. -/
theorem octets_of_turns {msg : Bytes} {n : ℕ} {w w' : NameWalk} (h : Turns msg n w w')
    (hw : w.octets = label_octets w.labels) (hlimit : w.octets ≤ MAX_NAME_OCTETS) :
    w'.octets = label_octets w'.labels ∧ w'.octets ≤ MAX_NAME_OCTETS := by
  induction h with
  | none w => exact ⟨hw, hlimit⟩
  | more first rest ih =>
    rcases turn_cases first with ⟨n, htaken⟩ | hback
    · apply ih
      · have hroom := htaken.room
        rw [htaken.at_] at hroom
        rw [htaken.octets, htaken.labels, hw]
        simp only [label_octets, List.map_append, List.sum_append, List.map_cons, List.map_nil,
          List.sum_cons, List.sum_nil, Packet.length_slice hroom]
        omega
      · exact htaken.limit
    · apply ih
      · rw [hback.octets, hback.labels, hw]
      · rw [hback.octets]
        exact hlimit

/-- A walk that ends with a name ends with the labels it has. -/
theorem labels_of_done {msg : Bytes} {w : NameWalk} {ls : List Bytes} {e : ℕ}
    (h : turn msg w = .done (some (ls, e))) : ls = w.labels := by
  unfold turn at h
  -- Only the root's octet ends with a result, and it adds no label.
  cases hlen : msg[w.at_]? with
  | none => simp [hlen] at h
  | some len =>
    simp only [hlen] at h
    by_cases hplain : len &&& 0xC0 = 0
    · simp only [if_pos hplain] at h
      by_cases hroot : len = 0
      · rw [if_pos hroot, Turn.done.injEq, Option.some.injEq, Prod.mk.injEq] at h
        exact h.1.symm
      · rw [if_neg hroot] at h
        split at h
        · simp at h
        · split at h <;> simp at h
    · simp only [if_neg hplain] at h
      by_cases hmarked : len &&& 0xC0 = 0xC0
      · simp only [if_pos hmarked] at h
        cases hlo : msg[w.at_ + 1]? with
        | none => simp [hlo] at h
        | some lo =>
          simp only [hlo] at h
          split at h <;> simp at h
      · simp [hmarked] at h

theorem label_octets_le {msg : Bytes} {pos : ℕ} {ls : List Bytes} {e : ℕ}
    (h : read_labels msg pos = some (ls, e)) : label_octets ls ≤ MAX_NAME_OCTETS := by
  obtain ⟨n, w, r, hturns, hdone, hr⟩ := read_name_loop_ends msg ⟨[], pos, none, 0, 0⟩
  have hr' : r = some (ls, e) := hr.symm.trans h
  rw [hr'] at hdone
  have hcharged := octets_of_turns hturns rfl (Nat.zero_le _)
  rw [labels_of_done hdone, ← hcharged.1]
  exact hcharged.2

/-! ## The text of a name -/

/-- A label's text, escaped. -/
def escaped (text : List Char) : List Char :=
  text.flatMap fun c => if c = '.' ∨ c = '\\' then ['\\', c] else [c]

theorem escaped_special {c : Char} (hc : c = '.' ∨ c = '\\') (text : List Char) :
    escaped (c :: text) = '\\' :: c :: escaped text := by
  rw [escaped, List.flatMap_cons, if_pos hc]
  rfl

theorem escaped_plain {c : Char} (hc : ¬ (c = '.' ∨ c = '\\')) (text : List Char) :
    escaped (c :: text) = c :: escaped text := by
  rw [escaped, List.flatMap_cons, if_neg hc]
  rfl

/-- The first dot that is not escaped closes a label. -/
theorem escaped_inj {t t' r r' : List Char}
    (h : escaped t ++ '.' :: r = escaped t' ++ '.' :: r') : t = t' ∧ r = r' := by
  -- The head of an escaped character is a backslash or the character itself, never a dot.
  have hhead : ∀ (c : Char) (text rest rest' : List Char),
      escaped (c :: text) ++ rest ≠ '.' :: rest' := by
    intro c text rest rest' heq
    by_cases hc : c = '.' ∨ c = '\\'
    · rw [escaped_special hc, List.cons_append, List.cons.injEq] at heq
      exact absurd heq.1 (by decide)
    · rw [escaped_plain hc, List.cons_append, List.cons.injEq] at heq
      exact hc (.inl heq.1)
  induction t generalizing t' with
  | nil =>
    cases t' with
    | nil => exact ⟨rfl, (List.cons.inj h).2⟩
    | cons c' t' => exact absurd h.symm (hhead c' t' _ _)
  | cons c t ih =>
    cases t' with
    | nil => exact absurd h (hhead c t _ _)
    | cons c' t' =>
      by_cases hc : c = '.' ∨ c = '\\'
      · rw [escaped_special hc] at h
        by_cases hc' : c' = '.' ∨ c' = '\\'
        · rw [escaped_special hc', List.cons_append, List.cons_append, List.cons_append,
            List.cons_append, List.cons.injEq, List.cons.injEq] at h
          obtain ⟨ht, hr⟩ := ih h.2.2
          exact ⟨by rw [h.2.1, ht], hr⟩
        · rw [escaped_plain hc', List.cons_append, List.cons_append, List.cons_append,
            List.cons.injEq] at h
          exact absurd (.inr h.1.symm) hc'
      · rw [escaped_plain hc] at h
        by_cases hc' : c' = '.' ∨ c' = '\\'
        · rw [escaped_special hc', List.cons_append, List.cons_append, List.cons_append,
            List.cons.injEq] at h
          exact absurd (.inr h.1) hc
        · rw [escaped_plain hc', List.cons_append, List.cons_append, List.cons.injEq] at h
          obtain ⟨ht, hr⟩ := ih h.2
          exact ⟨by rw [h.1, ht], hr⟩

/-- Well-formed UTF-8: the encoding of some text. -/
def ValidUtf8 (l : Bytes) : Prop := ∃ text : List Char, l = as_bytes text

theorem from_utf8_lossy_inj {l l' : Bytes} (hl : ValidUtf8 l) (hl' : ValidUtf8 l')
    (h : from_utf8_lossy l = from_utf8_lossy l') : l = l' := by
  obtain ⟨text, rfl⟩ := hl
  obtain ⟨text', rfl⟩ := hl'
  rw [from_utf8_lossy_as_bytes, from_utf8_lossy_as_bytes] at h
  rw [h]

theorem from_utf8_lossy_ne_nil {l : Bytes} (hl : ValidUtf8 l) (hne : l ≠ []) :
    from_utf8_lossy l ≠ [] := by
  obtain ⟨text, rfl⟩ := hl
  rw [from_utf8_lossy_as_bytes]
  intro hnil
  rw [hnil] at hne
  exact hne rfl

theorem render_cons (l : Bytes) (ls : List Bytes) :
    render (l :: ls) = escaped (from_utf8_lossy l) ++ '.' :: if ls = [] then [] else render ls := by
  unfold render
  rw [if_neg (List.cons_ne_nil l ls), List.flatMap_cons]
  cases ls with
  | nil => simp [escaped]
  | cons l' ls => simp [escaped]

/-- A name of labels is not written as the root is. -/
theorem render_cons_ne_root {l : Bytes} (hl : ValidUtf8 l) (hne : l ≠ []) (ls : List Bytes) :
    render (l :: ls) ≠ render [] := by
  intro h
  rw [render_cons] at h
  have hroot := @escaped_inj _ [] _ [] h
  exact from_utf8_lossy_ne_nil hl hne hroot.1

/-- **Labels that are non-empty valid UTF-8 are rendered injectively.** -/
theorem render_inj {ls ls' : List Bytes} (hls : ∀ l ∈ ls, l ≠ [] ∧ ValidUtf8 l)
    (hls' : ∀ l ∈ ls', l ≠ [] ∧ ValidUtf8 l) (h : render ls = render ls') : ls = ls' := by
  -- By the labels of the first name; the escaped dots keep a label and the name behind it apart.
  induction ls generalizing ls' with
  | nil =>
    cases ls' with
    | nil => rfl
    | cons l' ls' =>
      have hl' := hls' l' List.mem_cons_self
      exact absurd h.symm (render_cons_ne_root hl'.2 hl'.1 ls')
  | cons l ls ih =>
    have hl := hls l List.mem_cons_self
    cases ls' with
    | nil => exact absurd h (render_cons_ne_root hl.2 hl.1 ls)
    | cons l' ls' =>
      have hl' := hls' l' List.mem_cons_self
      rw [render_cons, render_cons] at h
      obtain ⟨htext, hrest⟩ := escaped_inj h
      have hlabel := from_utf8_lossy_inj hl.2 hl'.2 htext
      have hne (k : Bytes) (ks : List Bytes) : render (k :: ks) ≠ [] := by
        rw [render_cons]
        simp
      have hlabels : ls = ls' := by
        cases ls with
        | nil =>
          cases ls' with
          | nil => rfl
          | cons k ks => exact absurd hrest.symm (hne k ks)
        | cons j js =>
          cases ls' with
          | nil => exact absurd hrest (hne j js)
          | cons k ks =>
            exact ih (fun l hl => hls l (List.mem_cons_of_mem _ hl))
              (fun l hl => hls' l (List.mem_cons_of_mem _ hl)) hrest
      rw [hlabel, hlabels]

/-! ## What decoding a name costs and gives -/

/-- No name takes more turns: a jump each, and the shortest label is two octets. -/
def MAX_TURNS : ℕ := MAX_JUMPS + MAX_NAME_OCTETS / 2

/-- **`read_name` ends, and what it accepts is bounded**: every turn takes a label against the limit
or jumps back, there are at most `MAX_TURNS` of them, the labels of an accepted name take at most 255
octets, its end is past its start and in the message, and its text keeps its labels. -/
theorem read_name_bounded (msg : Bytes) (pos : ℕ) :
    (∀ w w', turn msg w = .go w' → (∃ n, Consumes msg w w' n) ∨ JumpsBack w w') ∧
    (∃ n w r, n ≤ MAX_TURNS ∧ Turns msg n ⟨[], pos, none, 0, 0⟩ w ∧ turn msg w = .done r ∧
      read_labels msg pos = r) ∧
    (∀ text e, read_name msg pos = some (text, e) →
      ∃ ls, read_labels msg pos = some (ls, e) ∧ text = render ls ∧ label_octets ls ≤ MAX_NAME_OCTETS ∧
        pos < e ∧ e ≤ msg.length) ∧
    ∀ ls ls' : List Bytes, (∀ l ∈ ls, l ≠ [] ∧ ValidUtf8 l) → (∀ l ∈ ls', l ≠ [] ∧ ValidUtf8 l) →
      render ls = render ls' → ls = ls' := by
  refine ⟨?_, ?_, ?_, ?_⟩
  · intro w w' hturn
    exact turn_cases hturn
  -- The measure bounds the turns, and the walk's start has the whole of it.
  · obtain ⟨n, w, r, hturns, hdone, hr⟩ := read_name_loop_ends msg ⟨[], pos, none, 0, 0⟩
    have hle := turns_le hturns
    have hstart : NameWalk.budget ⟨[], pos, none, 0, 0⟩ = MAX_TURNS := by
      simp [NameWalk.budget, MAX_TURNS]
    rw [hstart] at hle
    exact ⟨n, w, r, by omega, hturns, hdone, hr⟩
  -- A name read is found in the message, so it ends inside it.
  · intro text e h
    unfold read_name at h
    rw [Option.map_eq_some_iff] at h
    obtain ⟨⟨ls, e'⟩, hread, hr⟩ := h
    rw [Prod.mk.injEq] at hr
    obtain ⟨rfl, rfl⟩ := hr
    obtain ⟨segs, hat, -⟩ := read_labels_sound hread
    exact ⟨ls, hread, rfl, label_octets_le hread, hat.bounds⟩
  · intro ls ls' hls hls' h
    exact render_inj hls hls' h

/-- `a.` behind a pointer to it. -/
theorem pointed_name : NameAt [1, 97, 0, 0xC0, 0] 3 [[], [[97]]] 5 := by
  have hlabel : NameAt [1, 97, 0, 0xC0, 0] 0 [[[97]]] 3 :=
    .label (n := 1) rfl (by decide) rfl (by decide) (.root rfl)
  exact .pointer rfl rfl rfl (by decide) hlabel

theorem read_pointed_name : read_name [1, 97, 0, 0xC0, 0] 3 = some (render [[97]], 5) := by
  rw [read_name, read_labels_complete pointed_name (by decide) (by decide)]
  rfl

theorem read_name_bounded_witness :
    (∃ ls, read_labels [1, 97, 0, 0xC0, 0] 3 = some (ls, 5) ∧ render [[97]] = render ls ∧
      label_octets ls ≤ MAX_NAME_OCTETS ∧ 3 < 5 ∧ 5 ≤ 5) ∧
    render [[97]] ≠ render [[98]] := by
  have hlabel : ∀ c : UInt8, c = 97 ∨ c = 98 → ∀ l ∈ [[c]], l ≠ [] ∧ ValidUtf8 l := by
    intro c hc l hl
    rw [List.mem_singleton.1 hl]
    refine ⟨List.cons_ne_nil _ _, [Char.ofNat c.toNat], ?_⟩
    rcases hc with rfl | rfl
    · rfl
    · rfl
  have hbounded := read_name_bounded [1, 97, 0, 0xC0, 0] 3
  refine ⟨hbounded.2.2.1 _ _ read_pointed_name, ?_⟩
  intro h
  exact absurd (hbounded.2.2.2 _ _ (hlabel 97 (.inl rfl)) (hlabel 98 (.inr rfl)) h) (by decide)

end Wiry.Dns
