/-
What `BERcodec_Object.dec` makes of an element with octets behind it, beside what it makes of the
element alone.

The scan of `_tlv_ends` and the identifier and length of the decoder stop at the same octets. From
there on the octets behind the contents go untouched to the caller, into what an error keeps as
remaining, or, with `safe` on, into the object that swallows them.
-/
import Wiry.Ber.Steps

set_option autoImplicit false

namespace Wiry.Ber

open Packet (Bytes slice)

/-! ## The scan, from where an element starts -/

/-- Skipping a tag does not look at the octets before it. -/
theorem skip_tag_shift (before x : Bytes) (j : ℕ) :
    skip_tag (before ++ x) (before.length + j) = before.length + skip_tag x j := by
  -- Every octet looked at is behind the ones in front.
  have hget (j : ℕ) : (before ++ x)[before.length + j]? = x[j]? := by
    rw [List.getElem?_append_right (Nat.le_add_right _ _), Nat.add_sub_cancel_left]
  fun_induction skip_tag x j with
  | case1 j h =>
    rw [skip_tag]
    split
    · rfl
    · next b hb =>
      rw [hget, h] at hb
      cases hb
  | case2 j b h hlast =>
    rw [skip_tag]
    split
    · rfl
    · next b' hb =>
      rw [hget, h] at hb
      cases hb
      exact if_pos hlast
  | case3 j b h hmore ih =>
    rw [skip_tag]
    split
    · next hb =>
      rw [hget, h] at hb
      cases hb
    · next b' hb =>
      rw [hget, h] at hb
      cases hb
      rw [if_neg hmore]
      exact ih

/-- The end of an element is relative to where it starts. -/
theorem tlv_end_shift (before x : Bytes) :
    tlv_end (before ++ x) before.length = (tlv_end x 0).map (before.length + ·) := by
  -- The octets and slices behind the front are those of the string alone.
  have hget (j : ℕ) : (before ++ x)[before.length + j]? = x[j]? := by
    rw [List.getElem?_append_right (Nat.le_add_right _ _), Nat.add_sub_cancel_left]
  have hfirst := hget 0
  rw [Nat.add_zero] at hfirst
  have hslice (a b : ℕ) :
      slice (before ++ x) (before.length + a) (before.length + b) = slice x a b := by
    unfold slice
    rw [List.take_length_add_append, List.drop_length_add_append]
  unfold tlv_end
  rw [hfirst]
  -- Along the branches of the reader: no identifier, no length, the long form, the short form.
  cases x[0]? with
  | none => rfl
  | some id =>
    dsimp only
    have hj : (if id &&& 0x1F = 0x1F then skip_tag (before ++ x) (before.length + 1) + 1
        else before.length + 1)
        = before.length + (if id &&& 0x1F = 0x1F then skip_tag x (0 + 1) + 1 else 0 + 1) := by
      split
      · rw [skip_tag_shift, Nat.zero_add, Nat.add_assoc]
      · rw [Nat.zero_add]
    rw [hj]
    generalize (if id &&& 0x1F = 0x1F then skip_tag x (0 + 1) + 1 else 0 + 1) = j
    rw [hget]
    cases x[j]? with
    | none => rfl
    | some first =>
      dsimp only
      have hlen : (before ++ x).length = before.length + x.length := List.length_append
      have hmid : before.length + j + 1 = before.length + (j + 1) := Nat.add_assoc _ _ _
      rw [hmid, hlen]
      generalize (first &&& 0x7F).toNat = k
      rw [Nat.add_assoc before.length (j + 1) k, hslice]
      split
      · by_cases hroom : x.length < j + 1 + k
        · rw [if_pos (by omega), if_pos hroom]
          rfl
        · rw [if_neg (by omega), if_neg hroom]
          generalize from_bytes (slice x (j + 1) (j + 1 + k)) = m
          by_cases hfit : x.length < j + 1 + k + m
          · rw [if_pos (by omega), if_pos hfit]
            rfl
          · rw [if_neg (by omega), if_neg hfit, Option.map_some]
            simp only [Nat.add_assoc]
      · by_cases hfit : x.length < j + 1 + first.toNat
        · rw [if_pos (by omega), if_pos hfit]
          rfl
        · rw [if_neg (by omega), if_neg hfit, Option.map_some]
          simp only [Nat.add_assoc]

theorem skip_tag_cons_last {c : UInt8} (s : Bytes) (h : c &&& 0x80 = 0) :
    skip_tag (c :: s) 0 = 0 := by
  rw [skip_tag]
  split
  · rfl
  · next b hb =>
    cases hb
    exact if_pos h

theorem skip_tag_cons_more {c : UInt8} (s : Bytes) (h : c &&& 0x80 ≠ 0) :
    skip_tag (c :: s) 0 = skip_tag s 0 + 1 := by
  rw [skip_tag]
  split
  · next hb => cases hb
  · next b hb =>
    cases hb
    have hshift := skip_tag_shift [c] s 0
    rw [if_neg h, Nat.add_comm (skip_tag s 0)]
    exact hshift

/-! ## Identifier and length of an element the scan finds -/

variable {ν : Type}

/-- The octets `head` are an identifier and `len` a length of `size`, whatever follows. -/
structure Header (ν : Type) (head len : Bytes) (size : ℕ) : Prop where
  head_ne : head ≠ []
  len_ne : len ≠ []
  /-- A tag number the decoder takes, or one it finds too large. -/
  ident : (∃ p, ∀ z, ident (ν := ν) (head ++ z) = .ok (p, z)) ∨
    ∀ z, ident (ν := ν) (head ++ z) = .error (refuse .num_maximum (head.tail ++ z))
  length : ∀ z, len_dec (ν := ν) (len ++ z) = .ok (size, z)

/-- A number that is finished inside the string decides the loop: what follows it changes neither
the value read nor the refusal. -/
theorem num_loop_stops (s : Bytes) : ∀ (i x : ℕ), skip_tag s 0 < s.length →
    ∃ number r, s = number ++ r ∧ number.length = skip_tag s 0 + 1 ∧
      ((∃ p, ∀ all z, num_loop (ν := ν) all (number ++ z) i x = .ok (p, z)) ∨
        ∀ all z, num_loop (ν := ν) all (number ++ z) i x = .error (refuse .num_maximum all)) := by
  induction s with
  | nil =>
    intro i x h
    cases h
  | cons c s ih =>
    intro i x h
    by_cases hlast : c &&& 0x80 = 0
    · refine ⟨[c], s, rfl, ?_, Or.inl ⟨x * 128 + (c &&& 0x7F).toNat, fun all z => ?_⟩⟩
      · rw [skip_tag_cons_last s hlast]
        rfl
      · exact if_pos hlast
    · rw [skip_tag_cons_more s hlast] at h ⊢
      obtain ⟨number, r, hs, hlength, hloop⟩ :=
        ih (i + 1) (x * 128 + (c &&& 0x7F).toNat) (Nat.lt_of_succ_lt_succ h)
      refine ⟨c :: number, r, by rw [hs, List.cons_append], by rw [List.length_cons, hlength], ?_⟩
      -- an octet too many is refused before the rest is looked at
      by_cases hmax : 32 < i
      · refine Or.inr fun all z => ?_
        rw [List.cons_append, num_loop]
        exact (if_neg hlast).trans (if_pos hmax)
      · have hstep (all z : Bytes) : num_loop (ν := ν) all (c :: (number ++ z)) i x
            = num_loop all (number ++ z) (i + 1) (x * 128 + (c &&& 0x7F).toNat) := by
          rw [num_loop]
          exact (if_neg hlast).trans (if_neg hmax)
        rcases hloop with ⟨p, hp⟩ | hrefused
        · exact Or.inl ⟨p, fun all z => (hstep all z).trans (hp all z)⟩
        · exact Or.inr fun all z => (hstep all z).trans (hrefused all z)

/-- The same for a whole identifier, of one octet or of several. -/
theorem identifier_stops (id : UInt8) (s : Bytes)
    (h : (if id &&& 0x1F = 0x1F then skip_tag (id :: s) (0 + 1) + 1 else 0 + 1)
      < (id :: s).length) :
    ∃ head r, id :: s = head ++ r ∧
      head.length = (if id &&& 0x1F = 0x1F then skip_tag (id :: s) (0 + 1) + 1 else 0 + 1) ∧
      ((∃ p, ∀ z, ident (ν := ν) (head ++ z) = .ok (p, z)) ∨
        ∀ z, ident (ν := ν) (head ++ z) = .error (refuse .num_maximum (head.tail ++ z))) := by
  have hlen : (id :: s).length = s.length + 1 := rfl
  -- A high tag number goes on behind the first octet, a low one is that octet.
  by_cases hid : id &&& 0x1F = 0x1F
  · rw [if_pos hid] at h ⊢
    have hshift : skip_tag (id :: s) (0 + 1) = 1 + skip_tag s 0 := skip_tag_shift [id] s 0
    obtain ⟨number, r, hs, hlength, hloop⟩ := num_loop_stops (ν := ν) s 0 (id.toNat / 32) (by omega)
    -- some octet follows, or the number would not have ended
    have hident (z : Bytes) : ident (ν := ν) (id :: (number ++ z))
        = num_loop (number ++ z) (number ++ z) 0 (id.toNat / 32) := by
      have hne : number ++ z ≠ [] := by
        intro hnil
        have hnumber : number.length = 0 := by
          rw [(List.append_eq_nil_iff.1 hnil).1, List.length_nil]
        omega
      exact (if_neg (not_not.2 hid)).trans (if_neg hne)
    refine ⟨id :: number, r, by rw [hs, List.cons_append], ?_, ?_⟩
    · rw [List.length_cons]
      omega
    · rcases hloop with ⟨p, hp⟩ | hrefused
      · exact Or.inl ⟨p, fun z => (hident z).trans (hp _ z)⟩
      · exact Or.inr fun z => (hident z).trans (hrefused _ z)
  · rw [if_neg hid]
    exact ⟨[id], s, rfl, rfl, Or.inl ⟨id.toNat, fun z => if_pos hid⟩⟩

theorem slice_behind (before x : Bytes) (n : ℕ) :
    slice (before ++ x) before.length (before.length + n) = x.take n := by
  unfold slice
  rw [List.take_length_add_append, List.drop_left]

/-- The scan and the decoder stop at the same octets. -/
theorem tlv_end_header {s : Bytes} {stop : ℕ} (h : tlv_end s 0 = some stop) :
    ∃ head len contents behind, s = head ++ (len ++ (contents ++ behind)) ∧
      stop = (head ++ (len ++ contents)).length ∧ Header ν head len contents.length := by
  cases s with
  | nil => cases h
  | cons id s =>
    unfold tlv_end at h
    rw [List.getElem?_cons_zero] at h
    dsimp only at h
    split at h
    · cases h
    · next first hfirst =>
      obtain ⟨head, r, hs, hhead, hident⟩ :=
        identifier_stops (ν := ν) id s (List.getElem?_eq_some_iff.1 hfirst).1
      rw [← hhead] at h hfirst
      rw [hs] at h hfirst ⊢
      rw [List.getElem?_append_right (le_refl _), Nat.sub_self] at hfirst
      have hne : head ≠ [] := by
        intro hnil
        rw [hnil, List.length_nil] at hhead
        split at hhead
        · exact absurd hhead.symm (Nat.succ_ne_zero _)
        · cases hhead
      cases r with
      | nil => cases hfirst
      | cons b r =>
        cases hfirst
        have hlen : (head ++ first :: r).length = head.length + 1 + r.length := by
          rw [List.length_append, List.length_cons]
          omega
        have hslice (n : ℕ) : slice (head ++ first :: r) (head.length + 1) (head.length + 1 + n)
            = r.take n := by
          have hmid : head ++ first :: r = (head ++ [first]) ++ r := by simp
          have hsize : head.length + 1 = (head ++ [first]).length := by simp
          rw [hmid, hsize]
          exact slice_behind _ _ _
        rw [hlen, hslice] at h
        generalize hk : (first &&& 0x7F).toNat = k at h
        split at h
        · next hlong =>
          -- long form: `k` octets of length
          split at h
          · cases h
          · next hroom =>
            split at h
            · cases h
            · next hfit =>
              cases h
              have htake : (r.take k).length = k := List.length_take_of_le (by omega)
              have hdrop : ((r.drop k).take (from_bytes (r.take k))).length
                  = from_bytes (r.take k) := by
                rw [List.length_take, List.length_drop]
                omega
              refine ⟨head, first :: r.take k, (r.drop k).take (from_bytes (r.take k)),
                (r.drop k).drop (from_bytes (r.take k)), ?_, ?_, hne, List.cons_ne_nil _ _, hident,
                ?_⟩
              · rw [List.take_append_drop, List.cons_append, List.take_append_drop]
              · rw [List.length_append, List.length_append, List.length_cons, htake, hdrop]
                omega
              · intro z
                rw [hdrop]
                have hall : ¬ (first :: (r.take k ++ z)).length ≤ k := by
                  rw [List.length_cons, List.length_append, htake]
                  omega
                refine (if_neg hlong).trans ?_
                rw [hk]
                refine (if_neg hall).trans ?_
                have hleft : (r.take k ++ z).take k = r.take k := List.take_left' htake
                have hright : (r.take k ++ z).drop k = z := List.drop_left' htake
                change Except.ok (from_bytes ((r.take k ++ z).take k), (r.take k ++ z).drop k) = _
                rw [hleft, hright]
        · next hshort =>
          split at h
          · cases h
          · next hfit =>
            cases h
            have htake : (r.take first.toNat).length = first.toNat :=
              List.length_take_of_le (by omega)
            refine ⟨head, [first], r.take first.toNat, r.drop first.toNat, ?_, ?_, hne,
              List.cons_ne_nil _ _, hident, ?_⟩
            · rw [List.take_append_drop, List.singleton_append]
            · rw [List.length_append, List.length_append, htake, List.length_singleton]
              omega
            · intro z
              rw [htake]
              exact if_pos (not_not.1 hshort)

/-! ## What becomes of an element -/

/-- What an object out of a failure is: one that has swallowed all the octets. -/
def Decoded.swallows : Decoded ν → Bool
  | .decoding_error _ _ => true
  | .badtag o => o.swallows
  | _ => false

/-- What `elt` alone yields, beside what it yields with the octets `behind` it. -/
inductive Fate (safe : Bool) (elt behind : Bytes) :
    Except (Raised ν) (Decoded ν × Bytes) → Except (Raised ν) (Decoded ν × Bytes) → Prop
  | taken (o : Decoded ν) (h : o.swallows = false) :
    Fate safe elt behind (.ok (o, [])) (.ok (o, behind))
  | swallowed (hsafe : safe = true) (o o' : Decoded ν) (h : o.swallows = true) (hne : o ≠ o') :
    Fate safe elt behind (.ok (o, [])) (.ok (o', []))
  | bad_tag (got : ℕ) : Fate safe elt behind (.error (refuse (.bad_tag got) elt))
      (.error (refuse (.bad_tag got) (elt ++ behind)))
  | prefix_unknown (p : ℕ) :
    Fate safe elt behind (.error (refuse (.prefix_unknown p (shown elt)) elt))
      (.error (refuse (.prefix_unknown p (shown (elt ++ behind))) (elt ++ behind)))
  | num_maximum (remaining : Bytes) : Fate safe elt behind (.error (refuse .num_maximum remaining))
      (.error (refuse .num_maximum (remaining ++ behind)))
  /-- What an element inside it was refused for. -/
  | inner (h : safe = false) (why : Refusal) (remaining : Bytes) (val : List (Decoded ν)) :
    Fate safe elt behind (.error (.refused why remaining (some val)))
      (.error (.refused why (remaining ++ behind) (some val)))
  /-- Its own contents do not say what is behind them. -/
  | contents (c : Bytes) :
    Fate safe elt behind (.error (refuse .contents c)) (.error (refuse .contents c))
  | stopped (e : Raised ν) (h : ∀ why remaining decoded, e ≠ .refused why remaining decoded) :
    Fate safe elt behind (.error e) (.error e)

def Alike (safe : Bool) (elt behind : Bytes)
    (m m' : Except (Raised ν) (Decoded ν × Bytes) × Budget) : Prop :=
  m.2 = m'.2 ∧ Fate safe elt behind m.1 m'.1

variable {head len : Bytes} {size : ℕ}

/-- The identifier decoder of a header behaves alike on anything that follows the header. -/
theorem id_dec_header (hdr : Header ν head len size) (st : Budget) :
    ∃ mid, (∀ z, id_dec (ν := ν) (head ++ z) st = (.error .too_many_elements, mid)) ∨
      (∀ z, id_dec (ν := ν) (head ++ z) st = (.error (refuse .num_maximum (head.tail ++ z)), mid)) ∨
      ∃ p, ∀ z, id_dec (ν := ν) (head ++ z) st = (.ok (p, z), mid) := by
  rcases charge_cases (ν := ν) st with ⟨mid, hok⟩ | hno
  · refine ⟨mid, Or.inr ?_⟩
    have hident (z : Bytes) : id_dec (ν := ν) (head ++ z) st = (ident (head ++ z), mid) :=
      Run.and_then_of_ok hok _
    rcases hdr.ident with ⟨p, hp⟩ | hrefused
    · exact Or.inr ⟨p, fun z => by rw [hident, hp]⟩
    · exact Or.inl fun z => by rw [hident, hrefused]
  · exact ⟨st, Or.inl fun z => Run.and_then_of_error hno _⟩

/-- So does the length decoder, with the three ways it can refuse. -/
theorem get_len_header (hdr : Header ν head len size) (tag : ℕ) (st : Budget) :
    ∃ mid, (∀ z, get_len (ν := ν) tag (head ++ (len ++ z)) st = (.error .too_many_elements, mid)) ∨
      (∀ z, get_len (ν := ν) tag (head ++ (len ++ z)) st
        = (.error (refuse .num_maximum (head.tail ++ (len ++ z))), mid)) ∨
      (∃ got, ∀ z, get_len (ν := ν) tag (head ++ (len ++ z)) st
        = (.error (refuse (.bad_tag got) (head ++ (len ++ z))), mid)) ∨
      ∀ z, get_len (ν := ν) tag (head ++ (len ++ z)) st = (.ok (size, z), mid) := by
  have hs (z : Bytes) : head ++ z ≠ [] := fun h => hdr.head_ne (List.append_eq_nil_iff.1 h).1
  have hlen (z : Bytes) : len ++ z ≠ [] := fun h => hdr.len_ne (List.append_eq_nil_iff.1 h).1
  -- The identifier is charged, refused as too long, or read; the length is looked at only if the
  -- tag is the one wanted.
  obtain ⟨mid, hno | hmax | ⟨p, hp⟩⟩ := id_dec_header hdr st
  · refine ⟨mid, Or.inl fun z => ?_⟩
    unfold get_len
    rw [if_neg (hs _), Run.and_then_of_error (hno _)]
  · refine ⟨mid, Or.inr (Or.inl fun z => ?_)⟩
    unfold get_len
    rw [if_neg (hs _), Run.and_then_of_error (hmax _)]
  · by_cases htag : p = tag
    · refine ⟨mid, Or.inr (Or.inr (Or.inr fun z => ?_))⟩
      unfold get_len
      rw [if_neg (hs _), Run.and_then_of_ok (hp _), if_neg (not_not.2 htag), if_neg (hlen _)]
      exact Prod.ext (hdr.length z) rfl
    · refine ⟨mid, Or.inr (Or.inr (Or.inl ⟨p, fun z => ?_⟩))⟩
      unfold get_len
      rw [if_neg (hs _), Run.and_then_of_ok (hp _), if_pos htag]
      rfl

section Walking

variable {safe : Bool} {dec : Bytes → Run ν (Decoded ν × Bytes)} {behind : Bytes}

/-- What the walk over one element's contents yields, without and with octets behind the element. -/
inductive Outer (safe : Bool) (behind : Bytes) :
    Except (Raised ν) (List (Decoded ν)) → Except (Raised ν) (List (Decoded ν)) → Prop
  | ok (l : List (Decoded ν)) : Outer safe behind (.ok l) (.ok l)
  | inner (h : safe = false) (why : Refusal) (remaining : Bytes) (val : List (Decoded ν)) :
    Outer safe behind (.error (.refused why remaining (some val)))
      (.error (.refused why (remaining ++ behind) (some val)))
  | stopped (e : Raised ν) (h : ∀ why remaining decoded, e ≠ .refused why remaining decoded) :
    Outer safe behind (.error e) (.error e)

/-- The octets behind a walk reach its outcome only through the remainders it reports; the budget
never sees them. -/
theorem walk_behind (hdec : Steady safe dec) (behind : Bytes) (n : ℕ) :
    ∀ (elts : Elements) (obj : List (Decoded ν)) (st : Budget),
      (walk_elements dec [] n elts obj st).2 = (walk_elements dec behind n elts obj st).2 ∧
      Outer safe behind (walk_elements dec [] n elts obj st).1
        (walk_elements dec behind n elts obj st).1 := by
  -- By the turns left; the two walks share the budget, so they see the same element each time.
  induction n with
  | zero => exact fun elts obj st => ⟨rfl, .ok obj⟩
  | succ n ih =>
    intro elts obj st
    unfold walk_elements
    cases hnext : elts.next with
    | none => exact ⟨rfl, .ok obj⟩
    | some p =>
      dsimp only
      rcases hp : dec p.1 st with ⟨e | ⟨o, remain⟩, mid⟩
      · refine ⟨rfl, ?_⟩
        -- A refusal under either remainder is the same refusal with the octets behind put to it.
        cases e with
        | refused why remaining decoded =>
          have hunsafe : safe = false := by
            cases safe with
            | false => rfl
            | true => exact absurd hp (hdec.accepts rfl)
          cases decoded with
          | none =>
            have h : Outer safe behind _ _ := .inner hunsafe why (remaining ++ p.2.rest) obj
            simpa only [Raised.outward, List.append_nil, List.append_assoc] using h
          | some val =>
            have h : Outer safe behind _ _ := .inner hunsafe why (remaining ++ p.2.rest)
              (obj ++ [Decoded.decoded val])
            simpa only [Raised.outward, List.append_nil, List.append_assoc] using h
        | asn1_error => exact .stopped _ (by rintro _ _ _ ⟨⟩)
        | too_many_elements => exact .stopped _ (by rintro _ _ _ ⟨⟩)
        | recursion => exact .stopped _ (by rintro _ _ _ ⟨⟩)
        | python => exact .stopped _ (by rintro _ _ _ ⟨⟩)
      -- An element that decodes leaves less than itself, so both walks take the rest back and go
      -- on.
      · obtain ⟨elts'', hleft⟩ := leftover_ok (ν := ν) hnext (hdec.progress hp)
        dsimp only
        rw [hleft]
        exact ih _ _ _

/-- A constructed value whose octets are all there. -/
theorem sequence_whole (dec : Bytes → Run ν (Decoded ν × Bytes)) {tag size : ℕ} {s rest : Bytes}
    {st mid : Budget} (elements : Bool)
    (h : get_len (ν := ν) tag s st = (.ok (size, rest), mid)) (hfits : size ≤ rest.length) :
    sequence_dec elements dec tag s st
      = ((if elements then
            walk_elements dec (rest.drop size) (rest.take size).length
              (Elements.new (rest.take size)) []
          else walk_plain dec (rest.drop size) (rest.take size).length (rest.take size) []).and_then
        fun obj => .ok (obj, rest.drop size)) mid := by
  unfold sequence_dec
  rw [Run.and_then_of_ok h]
  simp only [if_neg (Nat.not_lt.2 hfits)]

/-- An element as the scan cuts it, and the octets it is followed by. -/
theorem cut_append (head len contents behind : Bytes) :
    head ++ (len ++ contents) ++ behind = head ++ (len ++ (contents ++ behind)) := by
  rw [List.append_assoc, List.append_assoc]

/-- A sequence whose contents end inside the string is decoded alike with anything behind it. -/
theorem sequence_header (hdec : Steady safe dec) {contents : Bytes}
    (hdr : Header ν head len contents.length) (tag : ℕ) (assigned : Bool) (behind : Bytes)
    (st : Budget) : Alike safe (head ++ (len ++ contents)) behind
      (entry_dec dec (.sequence tag assigned) (head ++ (len ++ contents)) st)
      (entry_dec dec (.sequence tag assigned) (head ++ (len ++ contents) ++ behind) st) := by
  have hentry (s : Bytes) : entry_dec dec (.sequence tag assigned) s
      = (sequence_dec true dec tag s).and_then fun p =>
          if assigned then .ok (.constructed tag p.1, p.2) else .raise .asn1_error := rfl
  have hrefused {s : Bytes} {e : Raised ν} {mid : Budget} (h : get_len tag s st = (.error e, mid)) :
      entry_dec dec (.sequence tag assigned) s st = (.error e, mid) :=
    Run.and_then_of_error (Run.and_then_of_error h _) _
  obtain ⟨mid, hno | hmax | ⟨got, htag⟩ | hok⟩ := get_len_header hdr tag st
  · rw [cut_append, hrefused (hno _), hrefused (hno _)]
    exact ⟨rfl, .stopped _ nofun⟩
  · rw [cut_append, hrefused (hmax _), hrefused (hmax _), ← cut_append head.tail]
    exact ⟨rfl, .num_maximum _⟩
  · have hgot := htag (contents ++ behind)
    rw [← cut_append] at hgot
    rw [hrefused (htag _), hrefused hgot]
    exact ⟨rfl, .bad_tag got⟩
  · have hdrop : (contents ++ behind).drop contents.length = behind := List.drop_left
    have htake : (contents ++ behind).take contents.length = contents := List.take_left
    have hfits : contents.length ≤ (contents ++ behind).length := by
      rw [List.length_append]
      exact Nat.le_add_right _ _
    have hplain := sequence_whole dec true (hok contents) le_rfl
    have hmore := sequence_whole dec true (hok (contents ++ behind)) hfits
    rw [List.drop_length, List.take_length] at hplain
    rw [hdrop, htake] at hmore
    -- the loop has the same contents, and `t` only where one of them is refused
    obtain ⟨hstate, houter⟩ :=
      walk_behind hdec behind contents.length (Elements.new contents) [] mid
    rw [cut_append, hentry, hentry]
    unfold Run.and_then
    rw [hplain, hmore, if_pos rfl, if_pos rfl]
    unfold Run.and_then
    revert hstate houter
    generalize walk_elements dec [] contents.length (Elements.new contents) [] mid = m
    generalize walk_elements dec behind contents.length (Elements.new contents) [] mid = m'
    obtain ⟨r, after⟩ := m
    obtain ⟨r', after'⟩ := m'
    rintro hstate houter
    dsimp only at hstate houter
    subst hstate
    cases houter with
    | ok l =>
      cases assigned with
      | false => exact ⟨rfl, .stopped _ nofun⟩
      | true => exact ⟨rfl, .taken _ rfl⟩
    | inner h why remaining val => exact ⟨rfl, .inner h why remaining val⟩
    | stopped e h => exact ⟨rfl, .stopped e h⟩

/-- The same for an element that nests nothing. -/
theorem leaf_header {contents : Bytes} (hdr : Header ν head len contents.length) (tag : ℕ)
    (value : Bytes → Except Objection ν) (behind : Bytes) (st : Budget) :
    Alike safe (head ++ (len ++ contents)) behind
      (entry_dec dec (.leaf tag value) (head ++ (len ++ contents)) st)
      (entry_dec dec (.leaf tag value) (head ++ (len ++ contents) ++ behind) st) := by
  -- A header that is refused refuses the whole element.
  have hrefused {s : Bytes} {e : Raised ν} {mid : Budget} (h : get_len tag s st = (.error e, mid)) :
      entry_dec dec (.leaf tag value) s st = (.error e, mid) :=
    Run.and_then_of_error (Run.and_then_of_error h _) _
  -- The four ends of the header; only the last one looks at the content.
  obtain ⟨mid, hno | hmax | ⟨got, htag⟩ | hok⟩ := get_len_header hdr tag st
  · rw [cut_append, hrefused (hno _), hrefused (hno _)]
    exact ⟨rfl, .stopped _ nofun⟩
  · rw [cut_append, hrefused (hmax _), hrefused (hmax _), ← cut_append head.tail]
    exact ⟨rfl, .num_maximum _⟩
  · have hgot := htag (contents ++ behind)
    rw [← cut_append] at hgot
    rw [hrefused (htag _), hrefused hgot]
    exact ⟨rfl, .bad_tag got⟩
  · have hcheck (z : Bytes) :
        check_len (ν := ν) tag (head ++ (len ++ (contents ++ z))) st
          = (.ok (contents, z), mid) := by
      have hfits : ¬ (contents ++ z).length < contents.length := by
        rw [List.length_append]
        omega
      unfold check_len
      rw [Run.and_then_of_ok (hok _), if_neg hfits, List.take_left, List.drop_left]
      rfl
    have hplain := hcheck []
    rw [List.append_nil] at hplain
    rw [cut_append]
    unfold entry_dec
    dsimp only
    rw [Run.and_then_of_ok hplain, Run.and_then_of_ok (hcheck behind)]
    dsimp only
    rcases value contents with (_ | _ | _) | val
    · exact ⟨rfl, .contents contents⟩
    · exact ⟨rfl, .stopped _ nofun⟩
    · exact ⟨rfl, .stopped _ nofun⟩
    · exact ⟨rfl, .taken _ rfl⟩

theorem entry_header (hdec : Steady safe dec) {contents : Bytes}
    (hdr : Header ν head len contents.length) (entry : Entry ν) (behind : Bytes) (st : Budget) :
    Alike safe (head ++ (len ++ contents)) behind
      (entry_dec dec entry (head ++ (len ++ contents)) st)
      (entry_dec dec entry (head ++ (len ++ contents) ++ behind) st) := by
  cases entry with
  | missing => exact ⟨rfl, .stopped _ nofun⟩
  | stem => exact ⟨rfl, .stopped _ nofun⟩
  | leaf tag value => exact leaf_header hdr tag value behind st
  | sequence tag assigned => exact sequence_header hdec hdr tag assigned behind st

/-! ## What `safe` makes of it -/

/-- The object of a second try keeps the fate of what it is of. -/
theorem badtag_alike {m m' : Run ν (Decoded ν × Bytes)} {elt : Bytes} {st : Budget}
    (h : Alike safe elt behind (m st) (m' st)) :
    Alike safe elt behind (m.and_then (fun r => .ok (.badtag r.1, r.2)) st)
      (m'.and_then (fun r => .ok (.badtag r.1, r.2)) st) := by
  unfold Run.and_then
  revert h
  generalize m st = a
  generalize m' st = a'
  obtain ⟨r, mid⟩ := a
  obtain ⟨r', mid'⟩ := a'
  rintro ⟨hstate, hfate⟩
  dsimp only at hstate hfate
  subst hstate
  -- The objection is put around the object; what befell the element stays as it was.
  cases hfate with
  | taken o h => exact ⟨rfl, .taken _ h⟩
  | swallowed hsafe o o' h hne =>
    exact ⟨rfl, .swallowed hsafe _ _ h fun heq => hne (Decoded.badtag.inj heq)⟩
  | bad_tag got => exact ⟨rfl, .bad_tag got⟩
  | prefix_unknown p => exact ⟨rfl, .prefix_unknown p⟩
  | num_maximum remaining => exact ⟨rfl, .num_maximum remaining⟩
  | inner h why remaining val => exact ⟨rfl, .inner h why remaining val⟩
  | contents c => exact ⟨rfl, .contents c⟩
  | stopped e h => exact ⟨rfl, .stopped e h⟩

/-- The retry under `safe` keeps the outcome alike: both runs fail in the same way or neither does,
so both take the same branch. -/
theorem guarded_alike {again do_dec : Bytes → Run ν (Decoded ν × Bytes)} {elt : Bytes}
    (hbehind : behind ≠ [])
    (hagain : ∀ st, Alike safe elt behind (again elt st) (again (elt ++ behind) st))
    {st : Budget} (hdo : Alike safe elt behind (do_dec elt st) (do_dec (elt ++ behind) st)) :
    Alike safe elt behind (guarded safe again do_dec elt st)
      (guarded safe again do_dec (elt ++ behind) st) := by
  have hlonger : elt ≠ elt ++ behind := fun h => hbehind (List.self_eq_append_right.1 h)
  have hswallowed (hsafe : safe = true) (e e' : Raised ν) (st : Budget) :
      Alike safe elt behind (.ok (Decoded.decoding_error elt e, []), st)
        (.ok (Decoded.decoding_error (elt ++ behind) e', []), st) := by
    exact ⟨rfl, .swallowed hsafe _ _ rfl fun h => hlonger (Decoded.decoding_error.inj h).1⟩
  unfold guarded
  revert hdo
  generalize do_dec elt st = m
  generalize do_dec (elt ++ behind) st = m'
  obtain ⟨r, mid⟩ := m
  obtain ⟨r', mid'⟩ := m'
  rintro ⟨hstate, hfate⟩
  dsimp only at hstate hfate
  subst hstate
  cases safe with
  | false =>
    cases hfate with
    | taken o h => exact ⟨rfl, .taken o h⟩
    | swallowed hsafe o o' h hne => exact ⟨rfl, .swallowed hsafe o o' h hne⟩
    | bad_tag got => exact ⟨rfl, .bad_tag got⟩
    | prefix_unknown p => exact ⟨rfl, .prefix_unknown p⟩
    | num_maximum remaining => exact ⟨rfl, .num_maximum remaining⟩
    | inner h why remaining val => exact ⟨rfl, .inner h why remaining val⟩
    | contents c => exact ⟨rfl, .contents c⟩
    | stopped e h => exact ⟨rfl, .stopped e h⟩
  | true =>
    -- what was refused becomes an object over all the octets, those behind included
    cases hfate with
    | taken o h => exact ⟨rfl, .taken o h⟩
    | swallowed hsafe o o' h hne => exact ⟨rfl, .swallowed hsafe o o' h hne⟩
    | bad_tag got => exact badtag_alike (hagain mid)
    | prefix_unknown p => exact hswallowed rfl _ _ _
    | num_maximum remaining => exact hswallowed rfl _ _ _
    | inner h why remaining val => cases h
    | contents c => exact hswallowed rfl _ _ _
    | stopped e h =>
      cases e with
      | refused why remaining decoded => exact absurd rfl (h _ _ _)
      | asn1_error => exact hswallowed rfl _ _ _
      | too_many_elements => exact ⟨rfl, .stopped _ nofun⟩
      | recursion => exact ⟨rfl, .stopped _ nofun⟩
      | python => exact ⟨rfl, .stopped _ nofun⟩

variable (context : ℕ → Option (Entry ν)) {contents : Bytes}

/-- The stem decodes alike with anything behind the element, whichever codec the identifier selects.
-/
theorem stem_alike (hdec : Steady safe dec) (hdr : Header ν head len contents.length)
    (hbehind : behind ≠ []) (hagain : ∀ st, Alike safe (head ++ (len ++ contents)) behind
      (dec (head ++ (len ++ contents)) st) (dec (head ++ (len ++ contents) ++ behind) st))
    (st : Budget) : Alike safe (head ++ (len ++ contents)) behind
      (stem_dec context safe dec (head ++ (len ++ contents)) st)
      (stem_dec context safe dec (head ++ (len ++ contents) ++ behind) st) := by
  have hs (z : Bytes) : head ++ z ≠ [] := fun h => hdr.head_ne (List.append_eq_nil_iff.1 h).1
  have hlen (z : Bytes) : len ++ z ≠ [] := fun h => hdr.len_ne (List.append_eq_nil_iff.1 h).1
  unfold stem_dec
  rw [if_neg (hs _), if_neg (by rw [cut_append]; exact hs _)]
  obtain ⟨mid, hno | hmax | ⟨p, hp⟩⟩ := id_dec_header hdr st
  · rw [Run.and_then_of_error (hno _), cut_append, Run.and_then_of_error (hno _)]
    exact ⟨rfl, .stopped _ nofun⟩
  · rw [Run.and_then_of_error (hmax _), cut_append, Run.and_then_of_error (hmax _),
      ← cut_append head.tail]
    exact ⟨rfl, .num_maximum _⟩
  · have hmore := hp (len ++ (contents ++ behind))
    rw [← cut_append] at hmore
    rw [Run.and_then_of_ok (hp _), Run.and_then_of_ok hmore]
    rcases hentry : context p with _ | _ | _ | ⟨tag, value⟩ | ⟨tag, assigned⟩
    · dsimp only
      exact ⟨rfl, .prefix_unknown p⟩
    · dsimp only
      exact ⟨rfl, .stopped _ nofun⟩
    · dsimp only
      -- ASN1_BADTAG of the contents, which `BERcodec_Object` cuts by the length too
      have hplain := hdr.length contents
      have hmore := hdr.length (contents ++ behind)
      rw [if_neg (hlen _), if_neg (hlen _), hplain, hmore]
      unfold Run.and_then Run.lift
      dsimp only
      rw [List.take_left, List.drop_left, List.take_length, List.drop_length]
      exact ⟨rfl, .taken _ rfl⟩
    · dsimp only
      exact guarded_alike hbehind hagain (entry_header hdec hdr _ behind mid)
    · dsimp only
      exact guarded_alike hbehind hagain (entry_header hdec hdr _ behind mid)

/-- An element the scan cuts out is decoded alike without and with octets behind it, up to the
ways an object or an error can keep them. -/
theorem dec_alike (safe : Bool) (hdr : Header ν head len contents.length) (hbehind : behind ≠ []) :
    ∀ room st, Alike safe (head ++ (len ++ contents)) behind
      (dec_in context safe room (head ++ (len ++ contents)) st)
      (dec_in context safe room (head ++ (len ++ contents) ++ behind) st) := by
  intro room
  induction room with
  | zero => exact fun st => ⟨rfl, .stopped _ nofun⟩
  | succ room ih =>
    exact fun st => guarded_alike hbehind ih
      (stem_alike context (dec_in_steady context safe room) hdr hbehind ih st)

end Walking

end Wiry.Ber
