/-
Where `BERcodec_SEQUENCE.do_dec` yields what its plain loop would.

The walk cuts the octets behind an element off, and what such an element makes of them is lost:
with `safe` on a failure swallows its own octets only, and with it off an error over the
element's contents has the rest in its remaining. The two part there and nowhere else.
-/
import Wiry.Ber.Behind

set_option autoImplicit false

namespace Wiry.Ber

open Packet (Bytes slice)

variable {ν : Type}

/-! ## What an element has to do with those behind it -/

/-- That an error over `elt` alone comes out the same once the octets `behind` are behind it. -/
def Raised.carries (elt behind : Bytes) : Raised ν → Prop
  | .refused why _ none =>
    match why with
    | .contents => False
    | .prefix_unknown _ octets => octets = shown (elt ++ behind)
    | _ => True
  | _ => True

/-- No element the scan finds swallows those behind it or keeps silent about them, up to the
first that stops the decode. -/
def undisturbed (dec : Bytes → Run ν (Decoded ν × Bytes)) : ℕ → Bytes → Budget → Prop
  | 0, _, _ => True
  | n + 1, s, st =>
    match tlv_end s 0 with
    | none => True
    | some stop =>
      s.drop stop = [] ∨
        match dec (s.take stop) st with
        | (.ok (o, _), st) => o.swallows = false ∧ undisturbed dec n (s.drop stop) st
        | (.error e, _) => e.carries (s.take stop) (s.drop stop)

/-- Two results that what follows the loop cannot make equal. -/
inductive Parted :
    Except (Raised ν) (List (Decoded ν)) → Except (Raised ν) (List (Decoded ν)) → Prop
  | errors {e e' : Raised ν} (h : e ≠ e') : Parted (.error e) (.error e')
  | objects {l l' : List (Decoded ν)} (h : l ≠ l') : Parted (.ok l) (.ok l')
  | stopped {e : Raised ν} {l : List (Decoded ν)}
      (h : ∀ why remaining decoded, e ≠ .refused why remaining decoded) : Parted (.error e) (.ok l)

/-! ## The two loops -/

section Loops

variable {safe : Bool} {dec : Bytes → Run ν (Decoded ν × Bytes)}

/-- Once octets are put back, the walk is the plain loop. -/
theorem slow_walk (hdec : Steady safe dec) (t : Bytes) (n : ℕ) :
    ∀ (elts : Elements) (s : Bytes) (obj : List (Decoded ν)) (st : Budget), elts.slow = some s →
      walk_elements dec t n elts obj st = walk_plain dec t n s obj st := by
  -- On the fuel. Without the index both hand what is left to the codec and go on behind the
  -- element.
  induction n with
  | zero => exact fun _ _ _ _ _ => rfl
  | succ n ih =>
    intro elts s obj st hslow
    unfold walk_elements walk_plain Elements.next
    rw [hslow]
    by_cases hs : s = []
    · subst hs
      rfl
    · dsimp only
      rw [if_neg hs, if_neg hs]
      dsimp only
      rcases hp : dec s st with ⟨e | ⟨o, remain⟩, mid⟩
      · rfl
      · dsimp only
        unfold leftover
        by_cases hremain : remain = []
        · rw [if_pos hremain, hremain]
          exact ih _ [] _ _ rfl
        -- the codec is steady: what it leaves is shorter than what it was given
        · have hshort := (hdec.progress hp).resolve_left hremain
          rw [if_neg hremain, if_neg (Nat.not_le.2 hshort)]
          refine ih _ remain _ _ ?_
          exact congrArg some (List.append_nil _)

/-- The walk only appends to the objects it was given. -/
theorem walk_elements_extends (t : Bytes) (n : ℕ) :
    ∀ {elts : Elements} {obj l : List (Decoded ν)} {st st' : Budget},
      walk_elements dec t n elts obj st = (.ok l, st') → ∃ more, l = obj ++ more := by
  induction n with
  | zero =>
    intro elts obj l st st' h
    cases h
    exact ⟨[], (List.append_nil _).symm⟩
  | succ n ih =>
    intro elts obj l st st' h
    unfold walk_elements at h
    cases hnext : elts.next with
    | none =>
      rw [hnext] at h
      cases h
      exact ⟨[], (List.append_nil _).symm⟩
    | some p =>
      rw [hnext] at h
      dsimp only at h
      split at h
      · cases h
      · next o remain mid ho =>
        -- the element is appended before the walk goes on
        split at h
        · cases h
        · obtain ⟨more, hmore⟩ := ih h
          exact ⟨o :: more, by rw [hmore, List.append_assoc, List.singleton_append]⟩

theorem walk_plain_nil (t : Bytes) (n : ℕ) (obj : List (Decoded ν)) (st : Budget) :
    walk_plain dec t n [] obj st = (.ok obj, st) := by
  cases n with
  | zero => rfl
  | succ n => rfl

/-- What an error comes to, from an element with octets behind it and from the plain loop. -/
theorem outward_fate {elt behind t : Bytes} {e e' : Raised ν} (obj : List (Decoded ν))
    (hbehind : behind ≠ []) (h : Fate safe elt behind (.error e) (.error e')) :
    e.outward (behind ++ t) obj = e'.outward t obj ↔ e.carries elt behind := by
  -- By what became of the element: only an error in its contents carries octets that tell the two
  -- apart.
  cases h with
  | bad_tag got =>
    refine iff_of_true ?_ trivial
    simp only [refuse, Raised.outward, List.append_assoc]
  | prefix_unknown p =>
    simp only [refuse, Raised.outward, Raised.carries, List.append_assoc, Raised.refused.injEq,
      Refusal.prefix_unknown.injEq, true_and, and_true]
  | num_maximum remaining =>
    refine iff_of_true ?_ trivial
    simp only [refuse, Raised.outward, List.append_assoc]
  | inner hsafe why remaining val =>
    refine iff_of_true ?_ trivial
    simp only [Raised.outward, List.append_assoc]
  | contents c =>
    refine iff_of_false (fun heq => hbehind ?_) id
    -- the same octets with and without `behind`, which is not empty
    have hrest : c ++ (behind ++ t) = c ++ t := (Raised.refused.inj heq).2.1
    have hlength := congrArg List.length hrest
    simp only [List.length_append] at hlength
    exact List.length_eq_zero_iff.1 (by omega)
  | stopped e h =>
    refine iff_of_true ?_ ?_
    · rw [outward_stopped h, outward_stopped h]
    · cases e with
      | refused why remaining decoded => exact absurd rfl (h _ _ _)
      | _ => trivial

/-- The elements the scan has left from octet `before.length` on. -/
structure Scanning (elts : Elements) (before s : Bytes) : Prop where
  all : elts.s = before ++ s
  pos : elts.pos = before.length
  ends : elts.ends = tlv_ends_from (before ++ s) before.length
  slow : elts.slow = none

theorem new_scanning (s : Bytes) : Scanning (Elements.new s) [] s := ⟨rfl, rfl, rfl, rfl⟩

/-- Where no element ends, the scanner hands out what is left as one piece, or nothing at the end.
-/
theorem scanning_end {elts : Elements} {before s : Bytes} (h : Scanning elts before s)
    (hend : tlv_end s 0 = none) :
    elts.next = if s = [] then none
      else some (s, { elts with pos := elts.s.length, slow := some [], last := s.length }) := by
  have hends : elts.ends = [] := by
    rw [h.ends]
    refine tlv_ends_from_none ?_
    rw [tlv_end_shift, hend]
    rfl
  have hdrop : elts.s.drop elts.pos = s := by rw [h.all, h.pos, List.drop_left]
  unfold Elements.next
  rw [h.slow, hends]
  dsimp only
  rw [hdrop, h.all, h.pos, List.length_append]
  by_cases hs : s = []
  · rw [if_pos hs, hs, if_neg (by simp)]
  · have hpos := List.length_pos_iff.2 hs
    rw [if_neg hs, if_pos (by omega)]

/-- Where an element ends, the scanner hands out that element and stands behind it. -/
theorem scanning_next {elts : Elements} {before s : Bytes} {stop : ℕ} (h : Scanning elts before s)
    (hstop : tlv_end s 0 = some stop) :
    ∃ elts', elts.next = some (s.take stop, elts') ∧
      Scanning elts' (before ++ s.take stop) (s.drop stop) := by
  have hshift : tlv_end (before ++ s) before.length = some (before.length + stop) := by
    rw [tlv_end_shift, hstop]
    rfl
  have hends := h.ends
  rw [tlv_ends_from_some hshift] at hends
  have hfits := (tlv_end_gt hstop).2
  have htake : (before ++ s.take stop).length = before.length + stop := by
    rw [List.length_append, List.length_take_of_le hfits]
  have hall : before ++ s.take stop ++ s.drop stop = before ++ s := by
    rw [List.append_assoc, List.take_append_drop]
  -- The chunk handed out is what stands in front of the end found.
  have hchunk : slice elts.s elts.pos (before.length + stop) = s.take stop := by
    rw [h.all, h.pos, slice_behind]
  refine ⟨{ elts with
    ends := tlv_ends_from (before ++ s) (before.length + stop)
    pos := before.length + stop
    last := (s.take stop).length }, ?_, ?_⟩
  · unfold Elements.next
    rw [h.slow, hends]
    dsimp only
    rw [hchunk]
  · refine ⟨h.all.trans hall.symm, htake.symm, ?_, h.slow⟩
    dsimp only
    rw [hall, htake]

theorem scanning_rest {elts : Elements} {before s : Bytes} (h : Scanning elts before s) :
    elts.rest = s := by
  unfold Elements.rest
  rw [h.slow, h.all, h.pos, Option.getD_none, List.drop_left]

/-- The last element is handed to the decoder with nothing behind it in either loop. -/
theorem walk_last (hdec : Steady safe dec) (t : Bytes) (n : ℕ) {elts elts' : Elements} {s : Bytes}
    (hs : s ≠ []) (hnext : elts.next = some (s, elts')) (hrest : elts'.rest = [])
    (hleft : ∀ obj st, walk_elements dec t n elts' obj st = (.ok obj, st))
    (obj : List (Decoded ν)) (st : Budget) :
    walk_elements dec t (n + 1) elts obj st = walk_plain dec t (n + 1) s obj st := by
  unfold walk_elements walk_plain
  rw [hnext, if_neg hs]
  dsimp only
  rcases hp : dec s st with ⟨e | ⟨o, remain⟩, mid⟩
  · dsimp only
    rw [hrest, List.nil_append]
  · dsimp only
    unfold leftover
    -- All of the last element is used, or the codec has left some of it, and the two walks go on
    -- with that.
    by_cases hremain : remain = []
    · rw [if_pos hremain, hremain]
      dsimp only
      rw [hleft, walk_plain_nil]
    · have hshort := (hdec.progress hp).resolve_left hremain
      rw [if_neg hremain, next_last hnext, if_neg (Nat.not_le.2 hshort)]
      refine slow_walk hdec t n _ remain _ _ ?_
      dsimp only
      rw [hrest, List.append_nil]

/-- The two loops over any decoder whose elements are alike in the sense above. -/
theorem walk_agree (hdec : Steady safe dec)
    (halike : ∀ {s : Bytes} {stop : ℕ}, tlv_end s 0 = some stop → s.drop stop ≠ [] → ∀ st,
      Alike safe (s.take stop) (s.drop stop) (dec (s.take stop) st) (dec s st))
    (t : Bytes) (n : ℕ) :
    ∀ (elts : Elements) (before s : Bytes) (obj : List (Decoded ν)) (st : Budget),
      Scanning elts before s →
        (undisturbed dec n s st →
          walk_elements dec t n elts obj st = walk_plain dec t n s obj st) ∧
        (¬ undisturbed dec n s st →
          Parted (walk_elements dec t n elts obj st).1 (walk_plain dec t n s obj st).1) := by
  induction n with
  | zero => exact fun _ _ _ _ _ _ => ⟨fun _ => rfl, fun h => absurd trivial h⟩
  | succ n ih =>
    intro elts before s obj st hscan
    unfold undisturbed
    cases hstop : tlv_end s 0 with
    | none =>
      -- the decoder gets the rest in one piece, as the plain loop's does
      refine ⟨fun _ => ?_, fun h => absurd trivial h⟩
      have hnext := scanning_end hscan hstop
      by_cases hs : s = []
      · rw [if_pos hs] at hnext
        rw [hs, walk_plain_nil]
        unfold walk_elements
        rw [hnext]
        rfl
      · rw [if_neg hs] at hnext
        refine walk_last hdec t n hs hnext rfl (fun obj st => ?_) obj st
        rw [slow_walk hdec t n _ [] obj st rfl, walk_plain_nil]
    | some stop =>
      have hgt := tlv_end_gt hstop
      have hs : s ≠ [] := by
        rintro rfl
        cases hstop
      obtain ⟨elts', hnext, hscan'⟩ := scanning_next hscan hstop
      have hrest := scanning_rest hscan'
      dsimp only
      by_cases hbehind : s.drop stop = []
      · refine ⟨fun _ => ?_, fun h => absurd (Or.inl hbehind) h⟩
        have htake : s.take stop = s := by
          rw [← List.append_nil (s.take stop), ← hbehind, List.take_append_drop]
        rw [htake] at hnext hscan'
        rw [hbehind] at hrest hscan'
        refine walk_last hdec t n hs hnext hrest (fun obj st => ?_) obj st
        have hend := (ih elts' _ [] obj st hscan').1
        cases n with
        | zero => rfl
        | succ n => exact (hend trivial).trans (walk_plain_nil _ _ _ _)
      · rw [or_iff_right hbehind]
        obtain ⟨hstate, hfate⟩ := halike hstop hbehind st
        unfold walk_elements walk_plain
        rw [hnext, if_neg hs]
        dsimp only
        revert hstate hfate
        generalize dec (s.take stop) st = m
        generalize dec s st = m'
        obtain ⟨r, mid⟩ := m
        obtain ⟨r', mid'⟩ := m'
        intro hstate hfate
        dsimp only at hstate hfate
        subst hstate
        have hleft : leftover (ν := ν) elts' [] = .ok elts' := if_pos rfl
        rcases r with e | ⟨o, remain⟩
        · rcases r' with e' | ⟨o', remain'⟩
          · have houtward := outward_fate (t := t) obj hbehind hfate
            dsimp only
            rw [hrest]
            refine ⟨fun h => ?_, fun h => .errors fun heq => h (houtward.1 heq)⟩
            rw [houtward.2 h]
          · cases hfate
        · cases hfate with
          | taken _ h =>
            dsimp only
            rw [hleft, and_iff_right h]
            exact ih elts' _ _ _ _ hscan'
          | swallowed hsafe _ o' h hne =>
            -- the plain loop ends here, with an object no list of the walk's has at this place
            refine ⟨fun hno => absurd (hno.1.symm.trans h) Bool.false_ne_true, fun _ => ?_⟩
            dsimp only
            rw [hleft, walk_plain_nil]
            dsimp only
            rcases hwalk : walk_elements dec t n elts' (obj ++ [o]) mid with ⟨e | l, after⟩
            · exact .stopped (walk_elements_stopped hdec hsafe t n hwalk)
            · obtain ⟨more, hl⟩ := walk_elements_extends t n hwalk
              refine .objects fun heq => hne ?_
              rw [hl, List.append_assoc] at heq
              exact (List.cons.inj (List.append_cancel_left heq)).1

end Loops

/-! ## BERcodec_SEQUENCE.do_dec -/

section Decoding

variable (context : ℕ → Option (Entry ν)) (safe : Bool)

/-- Decoding one element cut out of the string and decoding it in place are alike. -/
theorem dec_alike_cut (room : ℕ) {s : Bytes} {stop : ℕ} (hstop : tlv_end s 0 = some stop)
    (hbehind : s.drop stop ≠ []) (st : Budget) :
    Alike safe (s.take stop) (s.drop stop) (dec_in context safe room (s.take stop) st)
      (dec_in context safe room s st) := by
  obtain ⟨head, len, contents, behind, hs, hlength, hdr⟩ := tlv_end_header (ν := ν) hstop
  rw [← cut_append] at hs
  have htake : s.take stop = head ++ (len ++ contents) := by rw [hs, hlength, List.take_left]
  have hdrop : s.drop stop = behind := by rw [hs, hlength, List.drop_left]
  have halike := dec_alike context safe hdr (hdrop ▸ hbehind) room st
  rw [← hs] at halike
  rw [htake, hdrop]
  exact halike

/-- `undisturbed`, of the contents that do_dec takes from the octets at a depth. -/
def contents_undisturbed (depth tag : ℕ) (s : Bytes) (st : Budget) : Prop :=
  ∀ size rest mid, depth ≤ MAX_BER_DEPTH → get_len (ν := ν) tag s st = (.ok (size, rest), mid) →
    undisturbed (dec_in context safe (MAX_BER_DEPTH - depth)) (rest.take size).length
      (rest.take size) mid

/-- Behind its length a sequence is the walk over its contents, in either reading. -/
theorem sequence_of_contents {depth tag size : ℕ} {s rest : Bytes} {st mid : Budget}
    (elements : Bool) (hdepth : depth ≤ MAX_BER_DEPTH)
    (h : get_len (ν := ν) tag s st = (.ok (size, rest), mid)) :
    sequence_at context safe elements depth tag s st
      = ((if elements then
            walk_elements (dec_in context safe (MAX_BER_DEPTH - depth)) (rest.drop size)
              (rest.take size).length (Elements.new (rest.take size)) []
          else walk_plain (dec_in context safe (MAX_BER_DEPTH - depth)) (rest.drop size)
              (rest.take size).length (rest.take size) []).and_then
        fun obj => if rest.length < size then .raise (.refused .sequence_short [] (some obj))
          else .ok (obj, rest.drop size)) mid := by
  unfold sequence_at sequence_dec
  rw [if_neg (Nat.not_lt.2 hdepth), Run.and_then_of_ok h]

/-- What follows either loop keeps two parted results apart. -/
theorem parted_ends {m m' : Run ν (List (Decoded ν))} {st : Budget}
    (h : Parted (m st).1 (m' st).1) (short : Prop) [Decidable short] (t : Bytes) :
    m.and_then (fun obj =>
        if short then .raise (.refused .sequence_short [] (some obj)) else .ok (obj, t)) st
      ≠ m'.and_then (fun obj =>
          if short then .raise (.refused .sequence_short [] (some obj)) else .ok (obj, t)) st := by
  unfold Run.and_then
  revert h
  generalize m st = a
  generalize m' st = a'
  obtain ⟨x, mid⟩ := a
  obtain ⟨x', mid'⟩ := a'
  intro h heq
  dsimp only at h
  have heq := congrArg Prod.fst heq
  -- The elements part: two errors, two lists, or one that stops where the other does not.
  cases h with
  | errors h => exact h (Except.error.inj heq)
  | objects h =>
    by_cases hshort : short
    · simp only [if_pos hshort] at heq
      exact h (Option.some.inj (Raised.refused.inj (Except.error.inj heq)).2.2)
    · simp only [if_neg hshort] at heq
      exact h (congrArg Prod.fst (Except.ok.inj heq))
  | stopped h =>
    by_cases hshort : short
    · simp only [if_pos hshort] at heq
      exact h _ _ _ (Except.error.inj heq)
    · simp only [if_neg hshort] at heq
      cases heq

/-- The two readings of a sequence agree where nothing in its contents is disturbed. -/
theorem sequence_agree {depth tag : ℕ} {s : Bytes} {st : Budget}
    (h : contents_undisturbed context safe depth tag s st) :
    sequence_at context safe true depth tag s st
      = sequence_at context safe false depth tag s st := by
  by_cases hdepth : depth ≤ MAX_BER_DEPTH
  · rcases hlen : get_len (ν := ν) tag s st with ⟨e | ⟨size, rest⟩, mid⟩
    · unfold sequence_at sequence_dec
      rw [if_neg (Nat.not_lt.2 hdepth), if_neg (Nat.not_lt.2 hdepth), Run.and_then_of_error hlen,
        Run.and_then_of_error hlen]
    · rw [sequence_of_contents context safe true hdepth hlen,
        sequence_of_contents context safe false hdepth hlen]
      have hwalk := (walk_agree (dec_in_steady context safe (MAX_BER_DEPTH - depth))
        (dec_alike_cut context safe _) (rest.drop size) (rest.take size).length
        (Elements.new (rest.take size)) [] (rest.take size) [] mid (new_scanning _)).1
        (h size rest mid hdepth hlen)
      rw [if_pos rfl, if_neg Bool.false_ne_true]
      unfold Run.and_then
      rw [hwalk]
  · unfold sequence_at
    rw [if_pos (Nat.not_le.1 hdepth), if_pos (Nat.not_le.1 hdepth)]

theorem sequence_parted {depth tag size : ℕ} {s rest : Bytes} {st mid : Budget}
    (hdepth : depth ≤ MAX_BER_DEPTH) (hlen : get_len (ν := ν) tag s st = (.ok (size, rest), mid))
    (h : ¬ undisturbed (dec_in context safe (MAX_BER_DEPTH - depth)) (rest.take size).length
      (rest.take size) mid) :
    sequence_at context safe true depth tag s st
      ≠ sequence_at context safe false depth tag s st := by
  rw [sequence_of_contents context safe true hdepth hlen,
    sequence_of_contents context safe false hdepth hlen, if_pos rfl, if_neg Bool.false_ne_true]
  exact parted_ends ((walk_agree (dec_in_steady context safe (MAX_BER_DEPTH - depth))
    (dec_alike_cut context safe _) (rest.drop size) (rest.take size).length
    (Elements.new (rest.take size)) [] (rest.take size) [] mid (new_scanning _)).2 h) _ _

/-- The walk over `Elements` yields what the plain loop does, objects, remaining octets and error,
exactly when no element with others behind it swallows them or keeps silent about them. -/
theorem element_walk_iff {ν : Type} (context : ℕ → Option (Entry ν)) (safe : Bool) (depth tag : ℕ)
    (s : Bytes) (st : Budget) :
    sequence_at context safe true depth tag s st = sequence_at context safe false depth tag s st ↔
      contents_undisturbed context safe depth tag s st := by
  refine ⟨fun heq size rest mid hdepth hlen => ?_, sequence_agree context safe⟩
  by_contra h
  exact sequence_parted context safe hdepth hlen h heq

/-- With `safe` on, two octets of an unknown tag and an INTEGER behind them: the walk yields the
INTEGER too. -/
theorem failed_element_cut_off : ¬ ∀ (context : ℕ → Option (Entry ℤ)) (safe : Bool) (depth tag : ℕ)
    (s : Bytes) (st : Budget),
    sequence_at context safe true depth tag s st
      = sequence_at context safe false depth tag s st := by
  intro h
  have hlen : get_len (ν := ℤ) 0x30 [0x30, 5, 0x99, 0, 2, 1, 5] ⟨none, 0⟩
      = (.ok (5, [0x99, 0, 2, 1, 5]), ⟨none, 0⟩) := rfl
  refine sequence_parted
    (fun p => if p = 2 then some (.leaf 2 fun c => .ok (from_bytes_signed c)) else none) true
    (Nat.zero_le MAX_BER_DEPTH) hlen ?_ (h _ _ _ _ _ _)
  rintro (hnil | ⟨hno, -⟩)
  · cases hnil
  · cases hno

end Decoding

end Wiry.Ber
