/-
LDAP filters read back: the dissection of a filter's octets yields the filter, within as many
budgets and identifiers as its tree takes.

Each alternative is read for its own cost, from the inside out: its members,
the sequence or set around them, its tag, the root. `filter_reads` is the
recursion on the filter, with the nesting of the tree as the room it needs.
-/
import Wiry.Asn1.Yields
import Wiry.Ldap.Grammar

set_option autoImplicit false

namespace Wiry.Ldap

open Packet (Bytes)
open Ber (BerError IsTlv MAX_BER_DEPTH)
open Asn1

section Reading

variable {long : ℕ}

/-- The alternative's packet in its CHOICE. -/
theorem yields_constructed {α : Type} {tag : UInt8} {members : Bytes → Decode (α × Bytes)}
    {f : α → Filter} {content b : Bytes} {d n : ℕ} {a : α} (h : IsTlv 0x30 content b)
    (low : tag &&& 0x1F ≠ 0x1F) (hne : content ≠ [])
    (hmembers : Yields (members content) d n (a, [])) (r : Bytes) :
    Yields (constructed tag (sequence_m2i members) f (tagging_enc tag b ++ r)) (d + 1)
      (1 + (1 + n)) (f a, r) :=
  (yields_packet h low (yields_sequence h hne hmembers) r).then_ok rfl

theorem isTlv_ne {tag : UInt8} {content b : Bytes} (h : IsTlv tag content b) : b ≠ [] := by
  obtain ⟨rest, rfl⟩ := isTlv_cons h
  exact List.cons_ne_nil _ _

/-- A part of a substring filter is read back for three units of the budget. -/
theorem yields_substring {x : Substring} {b : Bytes} (h : x.build = .ok b) :
    (∃ tag content, IsTlv tag content b) ∧
      Yields (extract_packet substring_root b) 3 3 (x, []) := by
  -- The three alternatives differ in their tag alone.
  have hpart {tag : UInt8} {val : Bytes} {f : Bytes → Substring} (low : tag &&& 0x1F ≠ 0x1F)
      (hchoice : ∀ s, substring_choice tag.toNat s
        = (packet_m2i tag.toNat 0x04 dec_string s).and_then fun q => .ok (f q.1, q.2))
      (h : (enc_string val).map (tagging_enc tag) = .ok b) :
      (∃ tag content, IsTlv tag content b) ∧
        Yields (extract_packet substring_root b) 3 3 (f val, []) := by
    obtain ⟨b0, hb0, rfl⟩ := alternative_ok h
    have htlv := Ber.isTlv_of_tlv (by decide) hb0
    have houter := isTlv_tagging_enc htlv low
    refine ⟨⟨_, _, houter⟩, Yields.in_budget (d := 2) ?_⟩
    obtain ⟨rest, hrest⟩ := isTlv_cons houter
    unfold substring_root
    rw [if_neg (isTlv_ne houter)]
    -- the tag is read and chooses the alternative
    have hid : Yields (.of_run (Ber.id_dec (tagging_enc tag b0))) 2 1 (tag.toNat, rest) := by
      rw [hrest]
      exact (yields_id low rest).mono (Nat.zero_le 2)
    refine hid.and_then (k := 2) ?_
    dsimp only
    rw [hchoice]
    have hpacket := yields_packet htlv low (yields_string htlv) []
    rw [List.append_nil] at hpacket
    exact hpacket.then_ok rfl
  cases x with
  | initial val => exact hpart (by decide) (fun _ => rfl) h
  | any val => exact hpart (by decide) (fun _ => rfl) h
  | final val => exact hpart (by decide) (fun _ => rfl) h

/-- So are the parts in a row. -/
theorem elems_substrings : ∀ {xs : List Substring} {s : Bytes}, joined Substring.build xs = .ok s →
    Elems (extract_packet substring_root) (if xs = [] then 1 else 3) xs (3 * xs.length) s
  | [], s, h => by
    cases h
    exact .nil
  | x :: xs, s, h => by
    unfold joined at h
    cases hx : x.build with
    | error e =>
      rw [hx] at h
      cases h
    | ok b =>
      rw [hx] at h
      cases hxs : joined Substring.build xs with
      | error e =>
        rw [hxs] at h
        cases h
      | ok bs =>
        rw [hxs] at h
        cases h
        -- One part in front of those behind it, the deepest of them deciding the budget.
        obtain ⟨⟨tag, content, htlv⟩, hyields⟩ := yields_substring hx
        have hdepth : (if xs = [] then 1 else 3) ≤ 3 := by
          split
          · exact Nat.le_of_ble_eq_true rfl
          · exact le_rfl
        have hlater := (elems_substrings hxs).mono hdepth
        rw [if_neg (List.cons_ne_nil x xs), List.length_cons, Nat.mul_succ, Nat.add_comm]
        exact .cons htlv hyields hlater

/-- The root of a filter reads what its choice reads, for one unit more. -/
theorem yields_root {tag : UInt8} {content b : Bytes} {room d n : ℕ} {f : Filter}
    (h : IsTlv tag content b)
    (hchoice : ∀ r, Yields (filter_choice (extract_packet (filter_root room)) tag.toNat (b ++ r))
      d n (f, r))
    (r : Bytes) : Yields (filter_root (room + 1) (b ++ r)) d (1 + n) (f, r) := by
  obtain ⟨rest, hrest⟩ := isTlv_cons h
  have hne : b ++ r ≠ [] := fun hnil => isTlv_ne h (List.append_eq_nil_iff.1 hnil).1
  unfold filter_root
  rw [if_neg hne]
  have hid : Yields (.of_run (Ber.id_dec (b ++ r))) d 1 (tag.toNat, rest ++ r) := by
    rw [hrest, List.cons_append]
    exact (yields_id h.low (rest ++ r)).mono (Nat.zero_le d)
  exact hid.and_then (hchoice r)

/-- An assertion under any of its tags is read back. -/
theorem yields_assertion {tag : UInt8} {t v b : Bytes} (f : Bytes × Bytes → Filter) (room : ℕ)
    (low : tag &&& 0x1F ≠ 0x1F)
    (hchoice : ∀ s, filter_choice (extract_packet (filter_root room)) tag.toNat s
      = constructed tag assertion_root f s)
    (h : alternative tag (assertion_build long t v) = .ok b) :
    (∃ tag content, IsTlv tag content b) ∧
      ∀ r, Yields (filter_root (room + 1) (b ++ r)) 2 5 (f (t, v), r) := by
  obtain ⟨b0, hb0, rfl⟩ := alternative_ok h
  obtain ⟨bt, bv, hbt, hbv, hseq⟩ := sequence_build_two hb0
  have ht := Ber.isTlv_of_tlv (by decide) hbt
  have hv := Ber.isTlv_of_tlv (by decide) hbv
  have htlv := Ber.isTlv_of_tlv (by decide) hseq
  have houter := isTlv_tagging_enc htlv low
  refine ⟨⟨_, _, houter⟩, fun r => yields_root (n := 4) houter (fun r => ?_) r⟩
  rw [hchoice]
  have hlast := yields_string hv []
  rw [List.append_nil] at hlast
  have hmembers : Yields (assertion_members (bt ++ bv)) 1 (1 + 1) ((t, v), []) := by
    unfold assertion_members
    exact (yields_string ht bv).and_then (hlast.then_ok rfl)
  exact yields_constructed htlv low (List.append_ne_nil_of_left_ne_nil (isTlv_ne ht) _) hmembers r

/-- So is a set of filters when its members are. -/
theorem yields_set {tag : UInt8} {content b : Bytes} {vals : List Filter} {f : List Filter → Filter}
    {room d n : ℕ} (htlv : IsTlv 0x31 content b) (low : tag &&& 0x1F ≠ 0x1F)
    (hchoice : ∀ s, filter_choice (extract_packet (filter_root room)) tag.toNat s
      = (packet_m2i tag.toNat 0x31 (of_m2i 0x31 (extract_packet (filter_root room))) s).and_then
          fun q => .ok (f q.1, q.2))
    (hvals : Elems (extract_packet (filter_root room)) d vals n content) (r : Bytes) :
    Yields (filter_root (room + 1) (tagging_enc tag b ++ r)) (d + 1) (n + 3) (f vals, r) := by
  have hpicked (r : Bytes) : Yields (filter_choice (extract_packet (filter_root room)) tag.toNat
      (tagging_enc tag b ++ r)) (d + 1) (1 + (1 + n)) (f vals, r) := by
    rw [hchoice]
    exact (yields_packet htlv low (yields_of htlv hvals) r).then_ok rfl
  have hroot := yields_root (isTlv_tagging_enc htlv low) hpicked r
  rwa [show 1 + (1 + (1 + n)) = n + 3 by omega] at hroot

/-- A substring filter is read back. -/
theorem yields_substrings {type b : Bytes} {filters : List Substring} (room : ℕ)
    (h : (Filter.Substrings type filters).build long = .ok b) :
    (∃ tag content, IsTlv tag content b) ∧
      ∀ r, Yields (filter_root (room + 1) (b ++ r)) ((if filters = [] then 1 else 3) + 1)
        (3 * filters.length + 5) (.Substrings type filters, r) := by
  -- The octets from the outside in: the tag of the choice, the sequence, the type and the parts.
  unfold Filter.build at h
  obtain ⟨b0, hb0, rfl⟩ := alternative_ok h
  obtain ⟨bt, bs, hbt, hbs, hseq⟩ := sequence_build_two hb0
  have ht := Ber.isTlv_of_tlv (by decide) hbt
  have htlv := Ber.isTlv_of_tlv (by decide) hseq
  have houter := isTlv_tagging_enc htlv (show (0xA4 : UInt8) &&& 0x1F ≠ 0x1F by decide)
  refine ⟨⟨_, _, houter⟩, fun r => ?_⟩
  cases hfilters : joined Substring.build filters with
  | error e =>
    rw [hfilters] at hbs
    cases hbs
  | ok content =>
    rw [hfilters] at hbs
    have hs := Ber.isTlv_of_tlv (by decide) hbs
    have hof := yields_of hs (elems_substrings hfilters) []
    rw [List.append_nil] at hof
    have hdepth : 1 ≤ if filters = [] then 1 else 3 := by
      split
      · exact le_rfl
      · exact Nat.le_of_ble_eq_true rfl
    -- Read back in the same order, with the budget of each added up.
    have hmembers : Yields (substring_members (bt ++ bs)) (if filters = [] then 1 else 3)
        (1 + (1 + 3 * filters.length)) ((type, filters), []) := by
      unfold substring_members
      exact ((yields_string ht bs).mono hdepth).and_then (hof.then_ok rfl)
    have hpicked (r : Bytes) : Yields (filter_choice (extract_packet (filter_root room))
        (0xA4 : UInt8).toNat (tagging_enc 0xA4 b0 ++ r)) ((if filters = [] then 1 else 3) + 1)
        (1 + (1 + (1 + (1 + 3 * filters.length)))) (.Substrings type filters, r) :=
      yields_constructed (f := fun x : Bytes × List Substring => Filter.Substrings x.1 x.2) htlv
        houter.low (List.append_ne_nil_of_left_ne_nil (isTlv_ne ht) _) hmembers r
    have hroot := yields_root houter hpicked r
    rwa [show 1 + (1 + (1 + (1 + (1 + 3 * filters.length)))) = 3 * filters.length + 5 by omega]
      at hroot

/-- So is a presence filter. -/
theorem yields_present {present b : Bytes} (room : ℕ)
    (h : (Filter.Present present).build long = .ok b) :
    (∃ tag content, IsTlv tag content b) ∧
      ∀ r, Yields (filter_root (room + 1) (b ++ r)) 2 3 (.Present present, r) := by
  unfold Filter.build at h
  obtain ⟨b0, hb0, rfl⟩ := alternative_ok h
  have htlv := Ber.isTlv_of_tlv (by decide) hb0
  have houter := isTlv_tagging_enc htlv (show (0x87 : UInt8) &&& 0x1F ≠ 0x1F by decide)
  refine ⟨⟨_, _, houter⟩, fun r => yields_root (n := 2) houter (fun r => ?_) r⟩
  exact (yields_packet htlv houter.low (yields_string htlv) r).then_ok rfl

theorem nesting_pos (f : Filter) : 1 ≤ f.nesting := by
  cases f with
  | Substrings type filters =>
    unfold Filter.nesting
    split
    · exact Nat.le_of_ble_eq_true rfl
    · exact Nat.le_of_ble_eq_true rfl
  | _ =>
    unfold Filter.nesting
    omega

mutual

/-- **A filter without an extensible match is read back.** -/
theorem filter_reads : ∀ (f : Filter) {b : Bytes}, f.whole = true → f.plain = true →
    f.build long = .ok b → (∃ tag content, IsTlv tag content b) ∧
      ∀ room, f.nesting ≤ room + 1 → ∀ r,
        Yields (filter_root (room + 1) (b ++ r)) (f.nesting - 1) f.identifiers (f, r)
  | .And vals, b, hwhole, hplain, h => by
    unfold Filter.build at h
    cases hvals : build_all long vals with
    | error e =>
      rw [hvals] at h
      cases h
    | ok content =>
      rw [hvals] at h
      unfold Filter.whole at hwhole
      unfold Filter.plain at hplain
      obtain ⟨b0, hb0, rfl⟩ := alternative_ok h
      have htlv := Ber.isTlv_of_tlv (by decide) hb0
      refine ⟨⟨_, _, isTlv_tagging_enc htlv (show (0xA0 : UInt8) &&& 0x1F ≠ 0x1F by decide)⟩,
        fun room hroom r => ?_⟩
      unfold Filter.nesting at hroom ⊢
      unfold Filter.identifiers
      exact yields_set htlv (by decide) (fun _ => rfl)
        (all_read vals hwhole hplain hvals room (by omega)) r
  | .Or vals, b, hwhole, hplain, h => by
    unfold Filter.build at h
    cases hvals : build_all long vals with
    | error e =>
      rw [hvals] at h
      cases h
    | ok content =>
      rw [hvals] at h
      unfold Filter.whole at hwhole
      unfold Filter.plain at hplain
      obtain ⟨b0, hb0, rfl⟩ := alternative_ok h
      have htlv := Ber.isTlv_of_tlv (by decide) hb0
      refine ⟨⟨_, _, isTlv_tagging_enc htlv (show (0xA1 : UInt8) &&& 0x1F ≠ 0x1F by decide)⟩,
        fun room hroom r => ?_⟩
      unfold Filter.nesting at hroom ⊢
      unfold Filter.identifiers
      exact yields_set htlv (by decide) (fun _ => rfl)
        (all_read vals hwhole hplain hvals room (by omega)) r
  | .Not val, b, hwhole, hplain, h => by
    unfold Filter.build at h
    cases hval : val.build long with
    | error e =>
      rw [hval] at h
      cases h
    | ok content =>
      rw [hval] at h
      unfold Filter.whole at hwhole
      unfold Filter.plain at hplain
      obtain ⟨b0, hb0, rfl⟩ := alternative_ok h
      have htlv := Ber.isTlv_of_tlv (by decide) hb0
      have houter := isTlv_tagging_enc htlv (show (0xA2 : UInt8) &&& 0x1F ≠ 0x1F by decide)
      refine ⟨⟨_, _, houter⟩, fun room hroom r => ?_⟩
      unfold Filter.nesting at hroom ⊢
      unfold Filter.identifiers
      have hpos := nesting_pos val
      obtain ⟨room, rfl⟩ := Nat.exists_eq_add_of_le' (show 1 ≤ room by omega)
      obtain ⟨⟨tag, c, hinner⟩, hread⟩ := filter_reads val hwhole hplain hval
      have hval' := (hread room (by omega) []).in_budget
      rw [List.append_nil] at hval'
      have hmembers : Yields (extract_packet (filter_root (room + 1)) content) (val.nesting - 1 + 1)
        val.identifiers (val, []) := hval'
      have hpicked (r : Bytes) : Yields (filter_choice (extract_packet (filter_root (room + 1)))
          (0xA2 : UInt8).toNat (tagging_enc 0xA2 b0 ++ r)) (val.nesting - 1 + 1 + 1)
          (1 + (1 + val.identifiers)) (.Not val, r) :=
        yields_constructed htlv houter.low (isTlv_ne hinner) hmembers r
      have hroot := yields_root houter hpicked r
      rwa [show 1 + (1 + (1 + val.identifiers)) = val.identifiers + 3 by omega,
        show val.nesting - 1 + 1 + 1 = val.nesting + 2 - 1 by omega] at hroot
  -- The assertions differ in their tag only.
  | .EqualityMatch t v, b, _, _, h => by
    unfold Filter.build at h
    exact ⟨(yields_assertion (fun x => .EqualityMatch x.1 x.2) 0 (by decide) (fun _ => rfl) h).1,
      fun room _ r => (yields_assertion (fun x => .EqualityMatch x.1 x.2) room (by decide)
        (fun _ => rfl) h).2 r⟩
  -- A substring filter nests one level more when it has parts.
  | .Substrings type filters, b, _, _, h => by
    refine ⟨(yields_substrings 0 h).1, fun room _ r => ?_⟩
    have hread := (yields_substrings room h).2 r
    have hdepth : (if filters = [] then 1 else 3) + 1
        = (Filter.Substrings type filters).nesting - 1 := by
      unfold Filter.nesting
      split
      · rfl
      · rfl
    rwa [hdepth] at hread
  | .GreaterOrEqual t v, b, _, _, h => by
    unfold Filter.build at h
    exact ⟨(yields_assertion (fun x => .GreaterOrEqual x.1 x.2) 0 (by decide) (fun _ => rfl) h).1,
      fun room _ r => (yields_assertion (fun x => .GreaterOrEqual x.1 x.2) room (by decide)
        (fun _ => rfl) h).2 r⟩
  | .LessOrEqual t v, b, _, _, h => by
    unfold Filter.build at h
    exact ⟨(yields_assertion (fun x => .LessOrEqual x.1 x.2) 0 (by decide) (fun _ => rfl) h).1,
      fun room _ r => (yields_assertion (fun x => .LessOrEqual x.1 x.2) room (by decide)
        (fun _ => rfl) h).2 r⟩
  | .Present present, b, _, _, h =>
    ⟨(yields_present 0 h).1, fun room _ r => (yields_present room h).2 r⟩
  | .ApproxMatch t v, b, _, _, h => by
    unfold Filter.build at h
    exact ⟨(yields_assertion (fun x => .ApproxMatch x.1 x.2) 0 (by decide) (fun _ => rfl) h).1,
      fun room _ r => (yields_assertion (fun x => .ApproxMatch x.1 x.2) room (by decide)
        (fun _ => rfl) h).2 r⟩
  | .ExtensibleMatch _ _ _ _, _, _, hplain, _ => by
    unfold Filter.plain at hplain
    cases hplain
  | .hollow _, _, hwhole, _, _ => by
    unfold Filter.whole at hwhole
    cases hwhole

/-- Plain filters in a row are read back within the room their nesting asks for; the induction is on
the list, inside the one on the filter. -/
theorem all_read : ∀ (fs : List Filter) {s : Bytes}, all_whole fs = true → all_plain fs = true →
    build_all long fs = .ok s → ∀ room, nesting_all fs ≤ room →
      Elems (extract_packet (filter_root room)) (nesting_all fs) fs (identifiers_all fs) s
  | [], s, _, _, h, _, _ => by
    cases h
    exact .nil
  | f :: fs, s, hwhole, hplain, h, room, hroom => by
    unfold build_all at h
    cases hf : f.build long with
    | error e =>
      rw [hf] at h
      cases h
    | ok b =>
      rw [hf] at h
      cases hfs : build_all long fs with
      | error e =>
        rw [hfs] at h
        cases h
      | ok bs =>
        rw [hfs] at h
        cases h
        unfold all_whole at hwhole
        unfold all_plain at hplain
        have hwhole := Bool.and_eq_true_iff.1 hwhole
        have hplain := Bool.and_eq_true_iff.1 hplain
        unfold nesting_all at hroom ⊢
        unfold identifiers_all
        have hpos := nesting_pos f
        obtain ⟨⟨tag, content, htlv⟩, hread⟩ := filter_reads f hwhole.1 hplain.1 hf
        have hlater := (all_read fs hwhole.2 hplain.2 hfs room (by omega)).mono
          (Nat.le_max_right f.nesting (nesting_all fs))
        obtain ⟨room, rfl⟩ := Nat.exists_eq_add_of_le' (show 1 ≤ room by omega)
        have hfirst := (hread room (by omega) []).in_budget
        rw [List.append_nil] at hfirst
        exact .cons htlv (hfirst.mono (by omega)) hlater

end

/-- The dissection of an LDAP_Filter opens the budget. -/
theorem LDAP_Filter_of_yields {b : Bytes} {f : Filter} {d n : ℕ}
    (h : Yields (filter_root MAX_BER_DEPTH b) d n (f, [])) (hd : d < MAX_BER_DEPTH)
    (hn : n ≤ Ber.MAX_BER_ELEMENTS) : LDAP_Filter b = .ok (f, []) := by
  have hinside := h Ber.MAX_BER_ELEMENTS 1 hn (by omega)
  have hopen : ¬ MAX_BER_DEPTH < 0 + 1 := by decide
  unfold LDAP_Filter extract_packet Decode.in_budget
  simp only [Option.isSome_none, Bool.false_eq_true, if_false, if_neg hopen, Nat.zero_add, hinside]

end Reading

end Wiry.Ldap
