/-
What the decoders of `python/wiry/asn1fields.py` read of octets that were built by their encoders:
how many identifiers that takes, and how deep it goes.

`Yields m d n r` is the rule of the library for such a decoder: with `n`
identifiers left and `d` levels of nesting it gives `r`. Two of them in a row
add up, so the cost of a packet is the sum over its members, by recursion on
its tree.
-/
import Wiry.Asn1.Fields
import Wiry.Ber.RoundTrip
import Wiry.Ber.WalkAgree

set_option autoImplicit false

namespace Wiry.Asn1

open Packet (Bytes)
open Ber (Budget Run Same Reads IsTlv Elements Scanning MAX_BER_DEPTH)

variable {α β : Type}

/-! ## Decodes that go well -/

/-- Within `d` levels and with `n` identifiers the decode yields `a`. -/
def Yields (m : Decode α) (d n : ℕ) (a : α) : Prop :=
  ∀ left nesting, n ≤ left → nesting + d ≤ MAX_BER_DEPTH →
    m ⟨some left, nesting⟩ = (.ok a, ⟨some (left - n), nesting⟩)

namespace Yields

variable {m : Decode α} {d d' n k : ℕ} {a : α}

theorem ok (a : α) (d : ℕ) : Yields (.ok a) d 0 a := fun _ _ _ _ => rfl

theorem mono (h : Yields m d n a) (hd : d ≤ d') : Yields m d' n a :=
  fun left nesting hleft hdepth => h left nesting hleft (by omega)

theorem and_then {f : α → Decode β} {b : β} (hm : Yields m d n a) (hf : Yields (f a) d k b) :
    Yields (m.and_then f) d (n + k) b := by
  intro left nesting hleft hdepth
  unfold Decode.and_then
  rw [hm left nesting (by omega) hdepth]
  dsimp only
  rw [hf (left - n) nesting (by omega) hdepth, Nat.sub_sub]

/-- What reads no identifier costs nothing more. -/
theorem then_ok {f : α → Decode β} {b : β} (hm : Yields m d n a) (hf : f a = .ok b) :
    Yields (m.and_then f) d n b := by
  refine hm.and_then (k := 0) ?_
  rw [hf]
  exact ok b d

theorem in_budget (h : Yields m d n a) : Yields (.in_budget m) (d + 1) n a := by
  intro left nesting hleft hdepth
  have hopen : ¬ MAX_BER_DEPTH < nesting + 1 := by omega
  have hinside := h left (nesting + 1) hleft (by omega)
  unfold Decode.in_budget
  simp only [Option.isSome_some, if_true, if_neg hopen, hinside, Nat.add_sub_cancel]

end Yields

/-! ## One element -/

/-- What the other model of the codec reads, a run reads within any number of levels. -/
theorem yields_of_reads {m : Run Unit α} {d : Ber.Decoder α} {n : ℕ} {a : α} (hm : Same m d)
    (h : Reads d n a) : Yields (.of_run m) 0 n a := by
  intro left nesting hleft _
  have hread := h left nesting
  have hsame := hm ⟨some left, nesting⟩
  rw [if_pos hleft] at hread
  unfold Decode.of_run
  rcases hrun : m ⟨some left, nesting⟩ with ⟨e | b, st⟩
  · rw [hrun] at hsame
    obtain ⟨e', he⟩ := hsame
    cases hread.symm.trans he
  · rw [hrun] at hsame
    cases hread.symm.trans hsame
    rfl

theorem yields_id {x : UInt8} (low : x &&& 0x1F ≠ 0x1F) (s : Bytes) :
    Yields (.of_run (Ber.id_dec (x :: s))) 0 1 (x.toNat, s) :=
  yields_of_reads (Ber.id_dec_same _) (Ber.reads_id low s)

variable {tag : UInt8} {content b : Bytes}

theorem yields_check_len (h : IsTlv tag content b) (r : Bytes) :
    Yields (.of_run (Ber.check_len tag.toNat (b ++ r))) 0 1 (content, r) :=
  yields_of_reads (Ber.check_len_same _ _) (h.reads_content r)

theorem isTlv_cons (h : IsTlv tag content b) : ∃ rest, b = tag :: rest := by
  obtain ⟨-, size, len, -, rfl⟩ := h
  exact ⟨_, rfl⟩

/-- An implicit tag leaves length and contents as they are. -/
theorem isTlv_tagging_enc {implicit_tag : UInt8} (h : IsTlv tag content b)
    (low : implicit_tag &&& 0x1F ≠ 0x1F) :
    IsTlv implicit_tag content (tagging_enc implicit_tag b) := by
  obtain ⟨-, size, len, hlen, rfl⟩ := h
  exact ⟨low, size, len, hlen, rfl⟩

/-- Decoding an implicit tag puts the tag it replaced back. -/
theorem yields_tagging_dec {implicit_tag : UInt8} (h : IsTlv tag content b)
    (low : implicit_tag &&& 0x1F ≠ 0x1F) (r : Bytes) :
    Yields (tagging_dec implicit_tag.toNat tag (tagging_enc implicit_tag b ++ r)) 0 1 (b ++ r) := by
  obtain ⟨rest, rfl⟩ := isTlv_cons h
  unfold tagging_dec tagging_enc
  rw [if_neg (List.cons_ne_nil tag rest), List.drop_one, List.tail_cons, List.cons_append,
    if_neg (List.cons_ne_nil _ _)]
  refine (yields_id low (rest ++ r)).then_ok ?_
  dsimp only
  rw [if_neg (not_not.2 rfl), List.cons_append]

theorem yields_implicit {implicit_tag : UInt8} {dec : Bytes → Decode (α × Bytes)} {d n : ℕ} {a : α}
    (h : IsTlv tag content b) (low : implicit_tag &&& 0x1F ≠ 0x1F)
    (hdec : ∀ r, Yields (dec (b ++ r)) d n (a, r)) (r : Bytes) :
    Yields (implicit_m2i implicit_tag.toNat tag dec (tagging_enc implicit_tag b ++ r)) d (1 + n)
      (a, r) :=
  ((yields_tagging_dec h low r).mono (Nat.zero_le d)).and_then (hdec r)

theorem yields_packet {implicit_tag : UInt8} {root : Bytes → Decode (α × Bytes)} {d n : ℕ} {a : α}
    (h : IsTlv tag content b) (low : implicit_tag &&& 0x1F ≠ 0x1F)
    (hroot : ∀ r, Yields (root (b ++ r)) d n (a, r)) (r : Bytes) :
    Yields (packet_m2i implicit_tag.toNat tag root (tagging_enc implicit_tag b ++ r)) (d + 1)
      (1 + n) (a, r) :=
  yields_implicit h low (fun r => (hroot r).in_budget) r

theorem yields_string (h : IsTlv 0x04 content b) (r : Bytes) :
    Yields (dec_string (b ++ r)) 1 1 (content, r) := (yields_check_len h r).in_budget

/-! ## Members and elements -/

theorem yields_sequence {members : Bytes → Decode (α × Bytes)} {d n : ℕ} {a : α}
    (h : IsTlv 0x30 content b) (hne : content ≠ [])
    (hmembers : Yields (members content) d n (a, [])) (r : Bytes) :
    Yields (sequence_m2i members (b ++ r)) d (1 + n) (some a, r) := by
  unfold sequence_m2i
  refine ((yields_check_len h r).mono (Nat.zero_le d)).and_then ?_
  dsimp only
  rw [if_neg hne]
  exact hmembers.then_ok (if_neg (not_not.2 rfl))

/-- The octets of elements one behind another, `n` identifiers in all. -/
inductive Elems (extract_packet : Bytes → Decode (α × Bytes)) (d : ℕ) : List α → ℕ → Bytes → Prop
  | nil : Elems extract_packet d [] 0 []
  | cons {x : α} {xs : List α} {k n : ℕ} {tag : UInt8} {content b bs : Bytes}
      (h : IsTlv tag content b) (hx : Yields (extract_packet b) d k (x, [])) (hxs : Elems extract_packet d xs n bs) :
      Elems extract_packet d (x :: xs) (k + n) (b ++ bs)

theorem Elems.mono {extract_packet : Bytes → Decode (α × Bytes)} {d d' n : ℕ} {xs : List α}
    {s : Bytes} (h : Elems extract_packet d xs n s) (hd : d ≤ d') : Elems extract_packet d' xs n s := by
  induction h with
  | nil => exact .nil
  | cons h hx _ ih => exact .cons h (hx.mono hd) ih

theorem yields_leftover (elts : Elements) (d : ℕ) : Yields (leftover elts []) d 0 elts :=
  fun _ _ _ _ => rfl

theorem tlv_end_head (h : IsTlv tag content b) (after : Bytes) :
    Ber.tlv_end (b ++ after) 0 = some b.length := by
  have hend := h.tlv_end_eq [] after
  rwa [List.nil_append, List.length_nil, Nat.zero_add] at hend

/-- The walk over a string of elements yields them all, in order, for the sum of their costs. -/
theorem yields_walk {extract_packet : Bytes → Decode (α × Bytes)} {d n : ℕ} {xs : List α}
    {s : Bytes} (h : Elems extract_packet d xs n s) : ∀ (turns : ℕ) (elts : Elements) (before : Bytes)
      (lst : List α), Scanning elts before s → s.length ≤ turns →
        Yields (walk extract_packet turns elts lst) d n (lst ++ xs) := by
  -- By the derivation that the elements are laid out; each turn of the walk takes one of them.
  induction h with
  | nil =>
    intro turns elts before lst hscan _
    rw [List.append_nil]
    cases turns with
    | zero => exact Yields.ok lst d
    | succ turns =>
      have hnext := Ber.scanning_end hscan rfl
      rw [if_pos rfl] at hnext
      unfold walk
      rw [hnext]
      exact Yields.ok lst d
  | @cons x xs k n tag content b bs h hx _ ih =>
    intro turns elts before lst hscan hturns
    obtain ⟨rest, hb⟩ := isTlv_cons h
    have hpos : 0 < b.length := by
      rw [hb]
      exact Nat.succ_pos _
    rw [List.length_append] at hturns
    obtain ⟨turns, rfl⟩ := Nat.exists_eq_add_of_le' (show 1 ≤ turns by omega)
    -- The scanner finds the end of the first element, so the walk decodes that element alone.
    obtain ⟨elts', hnext, hscan'⟩ := Ber.scanning_next hscan (tlv_end_head h bs)
    rw [List.take_left] at hnext
    rw [List.take_left, List.drop_left] at hscan'
    unfold walk
    rw [hnext]
    refine hx.and_then ?_
    -- It is consumed whole: nothing is left over, and the rest is the induction's.
    have hlater := ih turns elts' _ (lst ++ [x]) hscan' (by omega)
    rw [List.append_assoc, List.singleton_append] at hlater
    have hstep : Yields ((leftover elts' []).and_then fun elts =>
        walk extract_packet turns elts (lst ++ [x])) d (0 + n) (lst ++ x :: xs) :=
      (yields_leftover elts' d).and_then hlater
    rwa [Nat.zero_add] at hstep

theorem yields_of {extract_packet : Bytes → Decode (α × Bytes)} {d n : ℕ} {xs : List α}
    (h : IsTlv tag content b) (hxs : Elems extract_packet d xs n content) (r : Bytes) :
    Yields (of_m2i tag.toNat extract_packet (b ++ r)) d (1 + n) (xs, r) := by
  unfold of_m2i
  refine ((yields_check_len h r).mono (Nat.zero_le d)).and_then ?_
  exact (yields_walk hxs content.length (Elements.new content) [] [] (Ber.new_scanning content)
    le_rfl).then_ok rfl

end Wiry.Asn1
