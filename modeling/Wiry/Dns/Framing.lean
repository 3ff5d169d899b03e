/-
The two walks over a DNS message agree. Each step that decodes an item is a step of the
walk that only skips it, so a run of one is a run of the other, and what is decoded never
ends beyond what the dissector gives the layer.

`skip_rr_of_read` is the step for records and its counterparts those for names
and questions; a section is a run of steps under one budget (`take_items`), and
the message its four sections.
-/
import Wiry.Dns.Records

set_option autoImplicit false

namespace Wiry.Dns

open Packet (Bytes slice slice_checked)

/-! ## Names -/

/-- A name ends after it starts and within the message. -/
theorem skip_name_bounds (m : Bytes) (p : ℕ) {e : ℕ} (h : skip_name m p = some e) :
    p < e ∧ e ≤ m.length := by
  fun_induction skip_name m p with
  | case1 p hn => cases h
  | case2 p hc =>
    cases h
    exact ⟨Nat.lt_succ_self p, (List.getElem?_eq_some_iff.1 hc).1⟩
  | case3 p len hc short pos ih =>
    obtain ⟨hlt, hle⟩ := ih h
    exact ⟨by omega, hle⟩
  | case4 p len hc short marked room =>
    cases h
    exact ⟨by omega, room⟩
  | case5 p len hc short marked room => cases h
  | case6 p len hc short marked => cases h

/-- `skip_name` ends where `read_name` does, on every name it accepts. -/
theorem skip_name_of_read {m : Bytes} {p e : ℕ} {name : List Char}
    (h : read_name m p = some (name, e)) : skip_name m p = some e := by
  obtain ⟨⟨ls, e'⟩, hread, hr⟩ := Option.map_eq_some_iff.1 h
  rw [Prod.mk.injEq] at hr
  obtain ⟨segs, hat, _⟩ := read_labels_sound hread
  exact hat.skip_name_eq.trans (congrArg some hr.2)

theorem be16_room {b : Bytes} {off : ℕ} {v : UInt16} (h : be16 b off = some v) :
    off + 2 ≤ b.length := by
  obtain ⟨s, hs, _⟩ := Option.map_eq_some_iff.1 h
  unfold slice_checked at hs
  split at hs
  · next hroom => exact hroom.2
  · cases hs

/-! ## One item -/

theorem skip_question_of_read {m : Bytes} {pos next : ℕ} {q : Question}
    (h : read_question m pos = some (q, next)) : skip_question m pos = some next := by
  simp only [read_question, Option.bind_eq_bind, Option.bind_eq_some_iff] at h
  obtain ⟨⟨qname, e⟩, hname, qtype, htype, qclass, hclass, h⟩ := h
  rw [Option.some.injEq, Prod.mk.injEq] at h
  have hroom := be16_room hclass
  have hskip := skip_name_of_read hname
  simp only [skip_question, hskip, Option.bind_eq_bind, Option.bind_some]
  rw [if_neg (by omega), h.2]

theorem skip_rr_of_read {m : Bytes} {pos next : ℕ} {rr : ResourceRecord}
    (h : read_rr m pos = some (rr, next)) : skip_rr m pos = some next := by
  simp only [read_rr, Option.bind_eq_bind, Option.bind_eq_some_iff] at h
  obtain ⟨⟨rrname, e⟩, hname, t, htype, rclass, hclass, ttl, httl, rdlength, hlength, h⟩ := h
  split at h
  · cases h
  · next hroom =>
    rw [Option.some.injEq, Prod.mk.injEq] at h
    have hskip := skip_name_of_read hname
    simp only [skip_rr, hskip, hlength, Option.bind_eq_bind, Option.bind_some]
    rw [if_neg (by omega), ← h.2, Nat.add_assoc]

theorem skip_question_bounds {m : Bytes} {pos next : ℕ} (h : skip_question m pos = some next) :
    pos ≤ next ∧ next ≤ m.length := by
  simp only [skip_question, Option.bind_eq_bind, Option.bind_eq_some_iff] at h
  obtain ⟨e, hname, h⟩ := h
  have hpos := (skip_name_bounds m pos hname).1
  split at h
  · cases h
  · cases h
    omega

/-- So does skipping a record. -/
theorem skip_rr_bounds {m : Bytes} {pos next : ℕ} (h : skip_rr m pos = some next) :
    pos ≤ next ∧ next ≤ m.length := by
  simp only [skip_rr, Option.bind_eq_bind, Option.bind_eq_some_iff] at h
  obtain ⟨e, hname, rdlength, hlength, h⟩ := h
  have hpos := (skip_name_bounds m pos hname).1
  split at h
  · cases h
  · cases h
    omega

/-! ## Runs of items -/

section Runs

variable {skip : ℕ → Option ℕ}

/-- Two runs of skips are one. -/
theorem skip_items_add (a b pos : ℕ) :
    skip_items skip (a + b) pos = (skip_items skip a pos).bind (skip_items skip b) := by
  induction a generalizing pos with
  | zero => rw [Nat.zero_add]; rfl
  | succ a ih =>
    rw [Nat.succ_add, skip_items, skip_items]
    cases skip pos with
    | none => rfl
    | some next => exact ih next

/-- A walk whose steps advance and stay within `n` does so as a whole. -/
theorem skip_items_bounds {n : ℕ} (hskip : ∀ pos next, skip pos = some next → pos ≤ next ∧ next ≤ n)
    (k : ℕ) {pos e : ℕ} (h : skip_items skip k pos = some e) : pos ≤ e ∧ (pos ≤ n → e ≤ n) := by
  induction k generalizing pos with
  | zero =>
    cases h
    exact ⟨le_rfl, id⟩
  | succ k ih =>
    obtain ⟨next, hnext, hrest⟩ := Option.bind_eq_some_iff.1 h
    obtain ⟨hpos, hle⟩ := hskip pos next hnext
    obtain ⟨hnext, hwithin⟩ := ih hrest
    exact ⟨by omega, fun _ => hwithin hle⟩

/-- A shorter walk stops no later. -/
theorem skip_items_mono {n : ℕ} (hskip : ∀ pos next, skip pos = some next → pos ≤ next ∧ next ≤ n)
    {j k pos a b : ℕ} (hjk : j ≤ k) (ha : skip_items skip j pos = some a)
    (hb : skip_items skip k pos = some b) : a ≤ b := by
  obtain ⟨i, rfl⟩ := Nat.exists_eq_add_of_le hjk
  rw [skip_items_add, ha, Option.bind_some] at hb
  exact (skip_items_bounds hskip i hb).1

variable {α : Type} {read : ℕ → Option (α × ℕ)} (cost : α → ℕ)

/-- What a counted loop decodes, the walk that skips passes over. -/
theorem skip_items_taken (hread : ∀ pos x next, read pos = some (x, next) → skip pos = some next)
    (n pos budget : ℕ) :
    skip_items skip (take_items read cost n pos budget).items.length pos
      = some (take_items read cost n pos budget).pos := by
  fun_induction take_items read cost n pos budget with
  | case1 => rfl
  | case2 => rfl
  | case3 => rfl
  | case4 n pos budget x next hx hcost t ih =>
    rw [List.length_cons, skip_items, hread pos x next hx]
    exact ih

/-- At most as many items are taken as were announced, and the section is full exactly when all of
them were. -/
theorem length_take_items (read : ℕ → Option (α × ℕ)) (n pos budget : ℕ) :
    (take_items read cost n pos budget).items.length ≤ n
      ∧ ((take_items read cost n pos budget).full = true
        ↔ (take_items read cost n pos budget).items.length = n) := by
  fun_induction take_items read cost n pos budget with
  | case1 => simp
  | case2 => simp
  | case3 => simp
  | case4 n pos budget x next hx hcost t ih =>
    obtain ⟨hle, hfull⟩ := ih
    refine ⟨Nat.succ_le_succ hle, ?_⟩
    rw [List.length_cons, Nat.succ_inj]
    exact hfull

end Runs

/-! ## Messages -/

theorem skip_items_section {α : Type} (m : Bytes) (n : ℕ) (before : Taken α) :
    skip_items (skip_rr m) (take_section m n before).items.length before.pos
        = some (take_section m n before).pos
      ∧ (take_section m n before).items.length ≤ n := by
  unfold take_section
  split
  · exact ⟨skip_items_taken decoded_name_bytes (fun _ _ _ => skip_rr_of_read) n _ _,
      (length_take_items decoded_name_bytes _ n _ _).1⟩
  · exact ⟨rfl, Nat.zero_le n⟩

/-- Behind a loop that stopped short no section is read. -/
theorem take_section_short {α : Type} {m : Bytes} {before : Taken α} (h : before.full = false)
    (n : ℕ) : (take_section m n before).pos = before.pos ∧ (take_section m n before).full = false := by
  rw [take_section, if_neg (by rw [h]; exact Bool.false_ne_true)]
  exact ⟨rfl, rfl⟩

/-- The records of the three sections. -/
def Records.rr_count (r : Records) : ℕ := r.an.length + r.ns.length + r.ar.length

/-- What a decoding took, and where it stopped, the skipping walk passes over. -/
theorem skip_items_parse (m : Bytes) (counts : Counts) :
    ∃ pos, skip_items (skip_question m) (parse_from m counts).1.qd.length 12 = some pos
      ∧ skip_items (skip_rr m) (parse_from m counts).1.rr_count pos = some (parse_from m counts).2
      ∧ (parse_from m counts).1.qd.length ≤ counts.qd
      ∧ (parse_from m counts).1.rr_count ≤ counts.an + counts.ns + counts.ar
      ∧ ((parse_from m counts).1.qd.length = counts.qd ∨ (parse_from m counts).2 = pos) := by
  unfold parse_from Records.rr_count
  dsimp only
  -- each section goes on where the one before it stopped
  set qd := take_items (read_question m) (fun q => str_len q.qname) counts.qd 12 MAX_DECODED_NAME_BYTES
  set an := take_section m counts.an qd
  set ns := take_section m counts.ns an
  set ar := take_section m counts.ar ns
  have hqd : skip_items (skip_question m) qd.items.length 12 = some qd.pos :=
    skip_items_taken _ (fun _ _ _ => skip_question_of_read) _ _ _
  obtain ⟨hle, hfull⟩ := length_take_items
    (fun q : Question => str_len q.qname) (read_question m) counts.qd 12 MAX_DECODED_NAME_BYTES
  obtain ⟨han, hanle⟩ := skip_items_section m counts.an qd
  obtain ⟨hns, hnsle⟩ := skip_items_section m counts.ns an
  obtain ⟨har, harle⟩ := skip_items_section m counts.ar ns
  refine ⟨qd.pos, hqd, ?_, hle, Nat.add_le_add (Nat.add_le_add hanle hnsle) harle, ?_⟩
  · rw [skip_items_add, skip_items_add, han, Option.bind_some, hns, Option.bind_some, har]
  · by_cases hq : qd.full = true
    · exact .inl (hfull.1 hq)
    -- a loop of questions that stopped short leaves the position for all three sections
    · obtain ⟨hanpos, hanfull⟩ := take_section_short (m := m) (Bool.not_eq_true _ ▸ hq) counts.an
      obtain ⟨hnspos, hnsfull⟩ := take_section_short (m := m) hanfull counts.ns
      obtain ⟨harpos, _⟩ := take_section_short (m := m) hnsfull counts.ar
      exact .inr (harpos.trans (hnspos.trans hanpos))

theorem header_counts_room {m : Bytes} {counts : Counts} (h : header_counts m = some counts) :
    12 ≤ m.length := by
  simp only [header_counts, Option.bind_eq_bind, Option.bind_eq_some_iff] at h
  obtain ⟨_, _, _, _, _, _, _, har, _⟩ := h
  exact be16_room har

theorem message_len_of_counts {m : Bytes} {counts : Counts} (h : header_counts m = some counts) :
    message_len m = (skip_items (skip_question m) counts.qd 12).bind
      (skip_items (skip_rr m) (counts.an + counts.ns + counts.ar)) := by
  rw [message_len, h]
  rfl

/-- Where everything the header counts is decoded, the two walks end together. -/
theorem message_len_of_all {m : Bytes} {counts : Counts} (h : header_counts m = some counts)
    (hqd : (parse_from m counts).1.qd.length = counts.qd)
    (hrr : (parse_from m counts).1.rr_count = counts.an + counts.ns + counts.ar) :
    message_len m = some (parse_from m counts).2 := by
  obtain ⟨pos, hquestions, hrecords, _⟩ := skip_items_parse m counts
  rw [hqd] at hquestions
  rw [hrr] at hrecords
  rw [message_len_of_counts h, hquestions, Option.bind_some, hrecords]

/-- Nothing decoded ends beyond the layer. -/
theorem records_end_le (m : Bytes) : records_end m ≤ header_len m := by
  unfold records_end parse_walk
  cases h : header_counts m with
  | none => exact Nat.zero_le _
  | some counts =>
    dsimp only
    have hquestion : ∀ pos next, skip_question m pos = some next → pos ≤ next ∧ next ≤ m.length :=
      fun _ _ => skip_question_bounds
    have hrr : ∀ pos next, skip_rr m pos = some next → pos ≤ next ∧ next ≤ m.length :=
      fun _ _ => skip_rr_bounds
    -- what was decoded is a prefix of what the header counts
    obtain ⟨pos, hquestions, hrecords, hqle, hrle, hshort⟩ := skip_items_parse m counts
    have hpos := (skip_items_bounds hquestion _ hquestions).2 (header_counts_room h)
    unfold header_len
    cases hlen : message_len m with
    | none => exact (skip_items_bounds hrr _ hrecords).2 hpos
    | some e =>
      rw [message_len_of_counts h] at hlen
      obtain ⟨q, hq, he⟩ := Option.bind_eq_some_iff.1 hlen
      obtain hall | hstop := hshort
      · -- all questions decoded: both walks go on from the same offset
        rw [hall, hq, Option.some.injEq] at hquestions
        subst hquestions
        exact skip_items_mono hrr hrle hrecords he
      · rw [hstop]
        exact (skip_items_mono hquestion hqle hquestions hq).trans (skip_items_bounds hrr _ he).1

/-- Framing and decoding agree on the end of every name that decodes and of every message that
decodes as its header counts, and no record that decodes is cut. -/
theorem framing_agrees (m : Bytes) :
    (∀ p name e, read_name m p = some (name, e) → skip_name m p = some e ∧ p < e ∧ e ≤ m.length)
      ∧ (∀ counts, header_counts m = some counts →
          (parse_records m).qd.length = counts.qd → (parse_records m).an.length = counts.an →
          (parse_records m).ns.length = counts.ns → (parse_records m).ar.length = counts.ar →
          message_len m = some (records_end m))
      ∧ records_end m ≤ header_len m := by
  refine ⟨?_, ?_, records_end_le m⟩
  · intro p name e h
    have hskip := skip_name_of_read h
    exact ⟨hskip, skip_name_bounds m p hskip⟩
  · intro counts h hqd han hns har
    have hwalk : parse_walk m = parse_from m counts := by rw [parse_walk, h]
    rw [parse_records, hwalk] at hqd han hns har
    rw [records_end, hwalk]
    exact message_len_of_all h hqd (by rw [Records.rr_count, han, hns, har])

/-- A header that counts one question, and the question about the root. -/
def root_question : Bytes := [0, 0, 0, 0, 0, 1, 0, 0, 0, 0, 0, 0, 0, 0, 2, 0, 1]

theorem root_question_read : read_question root_question 12 = some (⟨['.'], 2, 1⟩, 17) := by
  have hname : read_labels root_question 12 = some ([], 13) :=
    read_labels_complete (.root rfl) (by decide) (by decide)
  rw [read_question, read_name, hname]
  rfl

theorem root_question_parsed : parse_records root_question = ⟨[⟨['.'], 2, 1⟩], [], [], []⟩ := by
  have hcounts : header_counts root_question = some ⟨1, 0, 0, 0⟩ := rfl
  rw [parse_records, parse_walk, hcounts]
  simp only [parse_from, take_items, root_question_read]
  rfl

theorem framing_agrees_root_question : message_len root_question = some (records_end root_question) :=
  (framing_agrees root_question).2.1 ⟨1, 0, 0, 0⟩ rfl (by rw [root_question_parsed]; rfl)
    (by rw [root_question_parsed]; rfl) (by rw [root_question_parsed]; rfl)
    (by rw [root_question_parsed]; rfl)

end Wiry.Dns
