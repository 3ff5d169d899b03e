/-
The frames `fragment_v4` lays down, each as a datagram of its own: its lengths and checksum, its
offset and flag, the options it carries, and its payload's place in the whole.

What is said of a frame is `CarriesPiece`, one field for each fact a receiver
relies on. The options of the later fragments are those with the copied bit
(`copied_loop_eq`), and the payloads of all frames put together are the payload
of the datagram (`flatMap_cuts_from`).
-/
import Wiry.Frag.RoundTrip
import Wiry.Packet.Sums

set_option autoImplicit false

namespace Wiry.Frag

open Wiry.Packet OnesComplement

/-! ## Options -/

/-- The options of a region, each in its octets: No Operation is a single one, and the walk ends at
End of Option List and at a length that does not fit. -/
def options_from : ℕ → Bytes → List Bytes
  | 0, _ => []
  | _ + 1, [] => []
  | n + 1, t :: rest =>
    if t = 0 then []
    else if t = 1 then [t] :: options_from n rest
    else
      match rest with
      | [] => []
      | len :: _ =>
        if len.toNat < 2 ∨ len.toNat > (t :: rest).length then []
        else (t :: rest).take len.toNat :: options_from n ((t :: rest).drop len.toNat)

def options_of (opts : Bytes) : List Bytes := options_from opts.length opts

/-- The copied flag of an option. -/
def copied (o : Bytes) : Bool := o.getD 0 0 &&& 0x80 ≠ 0

/-- An option that is copied: its length is the one it names. -/
def CopiedOption (o : Bytes) : Prop :=
  ∃ t len rest, o = t :: len :: rest ∧ o.length = len.toNat ∧ 2 ≤ len.toNat ∧ t &&& 0x80 ≠ 0

/-- What stands first decides: nothing more, a single octet, or an option of the length it names. -/
theorem options_from_cases (n : ℕ) (t : UInt8) (rest : Bytes) :
    (options_from (n + 1) (t :: rest) = [] ∧ copied_loop (n + 1) (t :: rest) = []) ∨
      (t = 1 ∧ options_from (n + 1) (t :: rest) = [t] :: options_from n rest ∧
        copied_loop (n + 1) (t :: rest) = copied_loop n rest) ∨
      ∃ len tail, rest = len :: tail ∧ 2 ≤ len.toNat ∧ len.toNat ≤ (t :: rest).length ∧
        options_from (n + 1) (t :: rest)
          = (t :: rest).take len.toNat :: options_from n ((t :: rest).drop len.toNat) ∧
        copied_loop (n + 1) (t :: rest) = (if t &&& 0x80 ≠ 0 then (t :: rest).take len.toNat else [])
          ++ copied_loop n ((t :: rest).drop len.toNat) := by
  rw [options_from.eq_def, copied_loop.eq_def]
  dsimp only
  -- By the first octet, in the order the source asks: the end, padding, or an option with a length.
  by_cases h0 : t = 0
  · rw [if_pos h0, if_pos h0]
    exact .inl ⟨rfl, rfl⟩
  · rw [if_neg h0, if_neg h0]
    by_cases h1 : t = 1
    · rw [if_pos h1, if_pos h1]
      exact .inr (.inl ⟨h1, rfl, rfl⟩)
    · rw [if_neg h1, if_neg h1]
      cases rest with
      | nil => exact .inl ⟨rfl, rfl⟩
      | cons len tail =>
        dsimp only
        -- a length below two or past the end stops the walk
        by_cases hbad : len.toNat < 2 ∨ len.toNat > (t :: len :: tail).length
        · rw [if_pos hbad, if_pos hbad]
          exact .inl ⟨rfl, rfl⟩
        · rw [if_neg hbad, if_neg hbad]
          exact .inr (.inr ⟨len, tail, rfl, by omega, by omega, rfl, rfl⟩)

/-- The copying loop keeps exactly the options with the copied bit. -/
theorem copied_loop_eq (n : ℕ) (opts : Bytes) :
    copied_loop n opts = ((options_from n opts).filter copied).flatten := by
  induction n generalizing opts with
  | zero => rfl
  | succ n ih =>
    match opts with
    | [] => rfl
    | t :: rest =>
      rcases options_from_cases n t rest with ⟨ho, hc⟩ | ⟨rfl, ho, hc⟩ | ⟨len, tail, rfl, hlo, hhi, ho, hc⟩
      · rw [ho, hc]
        rfl
      · -- No Operation has the flag clear
        rw [ho, hc, ih]
        rfl
      · obtain ⟨m, hm⟩ : ∃ m, len.toNat = m + 1 := ⟨len.toNat - 1, by omega⟩
        have hflag : copied ((t :: len :: tail).take len.toNat) = decide (t &&& 0x80 ≠ 0) := by
          rw [hm]
          rfl
        rw [ho, hc, ih, List.filter_cons, hflag]
        by_cases hset : t &&& 0x80 ≠ 0
        · rw [if_pos hset, if_pos (decide_eq_true hset), List.flatten_cons]
        · rw [if_neg hset, if_neg (by simpa using hset), List.nil_append]

/-- Every option it keeps is one whole option. -/
theorem copied_option_of_mem (n : ℕ) {opts o : Bytes} (ho : o ∈ options_from n opts)
    (hcopied : copied o = true) : CopiedOption o := by
  induction n generalizing opts with
  | zero => exact absurd ho List.not_mem_nil
  | succ n ih =>
    match opts with
    | [] => exact absurd ho List.not_mem_nil
    | t :: rest =>
      -- By what stands at the front; only an option with its copied bit set is in question.
      rcases options_from_cases n t rest with ⟨hf, -⟩ | ⟨rfl, hf, -⟩ | ⟨len, tail, rfl, hlo, hhi, hf, -⟩
      · rw [hf] at ho
        exact absurd ho List.not_mem_nil
      · rw [hf] at ho
        rcases List.mem_cons.1 ho with rfl | ho
        · exact absurd hcopied (by decide)
        · exact ih ho
      · rw [hf] at ho
        rcases List.mem_cons.1 ho with rfl | ho
        · obtain ⟨m, hm⟩ : ∃ m, len.toNat = m + 2 := ⟨len.toNat - 2, by omega⟩
          refine ⟨t, len, tail.take m, by rw [hm]; rfl, ?_, hlo, ?_⟩
          · rw [List.length_take]
            omega
          · rw [hm] at hcopied
            exact of_decide_eq_true hcopied
        · exact ih ho

/-- Copied options one behind the other, and what the region is padded with, are read back. -/
theorem options_from_flatten {os : List Bytes} (hos : ∀ o ∈ os, CopiedOption o) (k : ℕ) {n : ℕ}
    (hn : os.flatten.length ≤ n) : options_from n (os.flatten ++ List.replicate k 0) = os := by
  induction os generalizing n with
  | nil =>
    rw [List.flatten_nil, List.nil_append]
    cases n with
    | zero => rfl
    | succ n =>
      cases k with
      | zero => rfl
      | succ k =>
        rcases options_from_cases n 0 (List.replicate k 0) with ⟨hf, -⟩ | ⟨h, -⟩ | ⟨len, tail, h, hlo, -⟩
        · exact hf
        · exact absurd h (by decide)
        · -- a zero names no length
          have hzero : len = 0 := List.eq_of_mem_replicate (h ▸ List.mem_cons_self)
          rw [hzero] at hlo
          exact absurd hlo (by decide)
  | cons o os ih =>
    obtain ⟨t, len, rest, rfl, hlen, htwo, hflag⟩ := hos o List.mem_cons_self
    rw [List.flatten_cons, List.length_append] at hn
    obtain ⟨n, rfl⟩ : ∃ m, n = m + 1 := ⟨n - 1, by omega⟩
    have hfront : (t :: len :: rest) ++ (os.flatten ++ List.replicate k 0)
        = t :: len :: (rest ++ (os.flatten ++ List.replicate k 0)) := rfl
    have hroom : (t :: len :: (rest ++ (os.flatten ++ List.replicate k 0))).length
        = len.toNat + (os.flatten ++ List.replicate k 0).length := by
      rw [← hfront, List.length_append, hlen]
    have h0 : t ≠ 0 := by
      rintro rfl
      exact hflag rfl
    have h1 : t ≠ 1 := by
      rintro rfl
      exact hflag rfl
    have hread : options_from (n + 1) (t :: len :: (rest ++ (os.flatten ++ List.replicate k 0)))
        = (t :: len :: (rest ++ (os.flatten ++ List.replicate k 0))).take len.toNat ::
          options_from n ((t :: len :: (rest ++ (os.flatten ++ List.replicate k 0))).drop len.toNat) := by
      rw [options_from.eq_def]
      dsimp only
      rw [if_neg h0, if_neg h1, if_neg (by omega)]
    rw [List.flatten_cons, List.append_assoc, hfront, hread, ← hfront, List.take_left' hlen,
      List.drop_left' hlen, ih (fun o ho => hos o (List.mem_cons_of_mem _ ho)) (by omega)]

/-- **A later fragment carries the copied options**, in order, and no others. -/
theorem options_of_copied (opts : Bytes) :
    options_of (copied_options opts) = (options_of opts).filter copied := by
  unfold options_of copied_options
  dsimp only
  rw [copied_loop_eq]
  apply options_from_flatten
  · intro o ho
    obtain ⟨ho, hcopied⟩ := List.mem_filter.1 ho
    exact copied_option_of_mem _ ho hcopied
  · rw [List.length_append]
    exact Nat.le_add_right _ _

/-! ## Checksum -/

/-- A sealed header sums to zero. -/
theorem sealed_sum {frame : Bytes} {off ihl : ℕ} (h : off + 20 ≤ frame.length)
    (hihl : off + ihl ≤ frame.length) (hmin : 20 ≤ ihl) (hmax : ihl ≤ 60) (total : ℕ) (w : UInt16) :
    ones_complement (slice (sealed frame off ihl total w) off (off + ihl)) = 0 := by
  obtain ⟨h2, h6⟩ := length_stamping h total w.toNat
  obtain ⟨b, hb⟩ : ∃ b, b = put (put frame (off + 2) (octets_of 2 total)) (off + 6)
    (octets_of 2 w.toNat) := ⟨_, rfl⟩
  rw [← hb] at h6
  -- the checksum is taken with its own word at zero
  obtain ⟨ck, hck⟩ : ∃ ck, ck = ones_complement (slice (put16 b (off + 10) 0) off (off + ihl)) :=
    ⟨_, rfl⟩
  have hsealed : sealed frame off ihl total w = put16 b (off + 10) ck := by
    rw [hck, hb]
    exact put_put (by rw [← hb]; simp only [List.length_cons, List.length_nil]; omega) rfl
  have hwords : words (slice (put16 b (off + 10) ck) off (off + ihl)) =
      words (slice (put16 b (off + 10) 0) off (off + ihl)) + ck.toNat :=
    words_slice_put16 (by omega) (by omega) (by omega) (by omega) ck
  have hle := words_le (slice (put16 b (off + 10) 0) off (off + ihl))
  have hlen : (slice (put16 b (off + 10) 0) off (off + ihl)).length = ihl := by
    have hput : (put16 b (off + 10) 0).length = b.length := length_put_word (by omega) _
    rw [length_slice (by omega)]
    omega
  rw [hlen] at hle
  have hcks := toNat_ones_complement (slice (put16 b (off + 10) 0) off (off + ihl))
  rw [← hck] at hcks
  generalize words (slice (put16 b (off + 10) 0) off (off + ihl)) = n at hwords hle hcks
  rw [Nat.mod_eq_of_lt (by omega)] at hcks
  have hmod := add_complement_mod n
  have hpos := add_complement_pos n
  apply UInt16.toNat_inj.1
  rw [hsealed, toNat_ones_complement, hwords, hcks, Nat.mod_eq_of_lt (by omega)]
  have hfolded := folded_mod (n + (65535 - folded n))
  have hzero := folded_eq_zero_iff (n + (65535 - folded n))
  have hbound := folded_le (n + (65535 - folded n))
  show 65535 - folded (n + (65535 - folded n)) = 0
  omega

/-! ## The pieces in order -/

/-- Two slices side by side are one. -/
theorem slice_append_slice (P : Bytes) {a b c : ℕ} (hab : a ≤ b) (hbc : b ≤ c) :
    slice P a b ++ slice P b c = slice P a c := by
  have hfront : P.take a ++ (slice P a b ++ slice P b c) = P.take a ++ slice P a c := by
    rw [← List.append_assoc, take_append_slice P hab, take_append_slice P hbc,
      take_append_slice P (hab.trans hbc)]
  exact List.append_cancel_left hfront

section Pieces

variable {unit n at_ i : ℕ} {P : Bytes} {c : ℕ × ℕ}

/-- Before a piece stand the pieces of what lies before it. -/
theorem flatMap_take_cuts_from (hunit : 0 < unit)
    (hc : (cuts_from unit P.length n at_)[i]? = some c) :
    ((cuts_from unit P.length n at_).take i).flatMap (fun c => slice P c.1 (c.1 + c.2))
      = slice P at_ c.1 := by
  induction n generalizing at_ i with
  | zero => cases hc
  | succ n ih =>
    rw [cuts_from] at hc ⊢
    by_cases hlt : at_ < P.length
    · rw [if_pos hlt] at hc ⊢
      cases i with
      | zero =>
        rw [← Option.some.inj hc, List.take_zero, List.flatMap_nil]
        exact (List.eq_nil_of_length_eq_zero (by rw [length_slice (by omega)]; omega)).symm
      | succ i =>
        rw [List.getElem?_cons_succ] at hc
        have hnext := mem_cuts_from hunit (List.mem_of_getElem? hc)
        rw [List.take_succ_cons, List.flatMap_cons, ih hc]
        exact slice_append_slice P (by omega) hnext.1
    · rw [if_neg hlt] at hc
      cases hc

/-- The pieces put together are the payload. -/
theorem flatMap_cuts_from (hunit : 0 < unit) (hn : P.length - at_ ≤ n) :
    (cuts_from unit P.length n at_).flatMap (fun c => slice P c.1 (c.1 + c.2))
      = slice P at_ P.length := by
  have hend : ∀ {a : ℕ}, ¬ a < P.length → slice P a P.length = [] := by
    intro a ha
    exact List.eq_nil_of_length_eq_zero (by rw [length_slice le_rfl]; omega)
  induction n generalizing at_ with
  | zero => exact (hend (by omega)).symm
  | succ n ih =>
    rw [cuts_from]
    by_cases hlt : at_ < P.length
    · rw [if_pos hlt, List.flatMap_cons, ih (by omega)]
      exact slice_append_slice P (by omega) (by omega)
    · rw [if_neg hlt, hend hlt]
      rfl

/-- The last piece is the one that ends where the payload does. -/
theorem last_cut_iff (hunit : 0 < unit) (hn : P.length - at_ ≤ n)
    (hc : (cuts_from unit P.length n at_)[i]? = some c) :
    c.1 + c.2 < P.length ↔ i + 1 < (cuts_from unit P.length n at_).length := by
  induction n generalizing at_ i with
  | zero => cases hc
  | succ n ih =>
    rw [cuts_from] at hc ⊢
    by_cases hlt : at_ < P.length
    · rw [if_pos hlt] at hc ⊢
      rw [List.length_cons]
      cases i with
      | zero =>
        rw [← Option.some.inj hc]
        dsimp only
        -- there is a next piece where this one leaves something
        cases n with
        | zero =>
          rw [cuts_from, List.length_nil]
          omega
        | succ n =>
          rw [cuts_from]
          by_cases hmore : at_ + min unit (P.length - at_) < P.length
          · rw [if_pos hmore, List.length_cons]
            omega
          · rw [if_neg hmore, List.length_nil]
            omega
      | succ i =>
        rw [List.getElem?_cons_succ] at hc
        rw [ih (by omega) hc]
        omega
    · rw [if_neg hlt] at hc
      cases hc

end Pieces

/-! ## Each frame a datagram -/

/-- The header's length a frame says. -/
def header_length (off : ℕ) (frame : Bytes) : ℕ := (frame.getD off 0 &&& 0x0f).toNat * 4

/-- The octets behind it. -/
def payload_of (off : ℕ) (frame : Bytes) : Bytes :=
  slice frame (off + header_length off frame) frame.length

/-- A frame that carries a piece of the payload of the datagram at `off` in `buf`, whose options are
`opts`: the piece at `at_`, or the last. -/
structure CarriesPiece (buf : Bytes) (off : ℕ) (opts : Bytes) (at_ : ℕ) (last : Bool)
    (frame : Bytes) : Prop where
  header : 20 ≤ header_length off frame ∧ off + header_length off frame ≤ frame.length
  total : (be16 frame (off + 2)).toNat = frame.length - off
  checksum :
    ones_complement (slice frame off (off + header_length off frame)) = 0
  position : (be16 frame (off + 6) &&& 0x1fff).toNat * 8
    = (be16 buf (off + 6) &&& 0x1fff).toNat * 8 + at_
  position_lt : (be16 frame (off + 6) &&& 0x1fff).toNat * 8 < 2 ^ 16
  more : be16 frame (off + 6) &&& 0x2000 ≠ 0 ↔ last = false ∨ be16 buf (off + 6) &&& 0x2000 ≠ 0
  options : if at_ = 0 then slice frame (off + 20) (off + header_length off frame) = opts
    else options_of (slice frame (off + 20) (off + header_length off frame))
      = (options_of opts).filter copied

namespace Splits4

variable {buf : Bytes} {off : ℕ} {s : Split4}

theorem header_length_frame (h : Splits4 buf off s) {c : ℕ × ℕ} :
    header_length off (frame_v4 buf off s c.1 c.2) = 20 + (tail_v4 buf off s c.1).length := by
  obtain ⟨hdvd, -⟩ := h.tail_bounds c.1
  unfold header_length
  rw [h.frame_first]
  omega

theorem payload_of_frame (h : Splits4 buf off s) (c : ℕ × ℕ) :
    payload_of off (frame_v4 buf off s c.1 c.2) = slice (payload_v4 buf off s) c.1 (c.1 + c.2) := by
  have hheader := h.length_header c.1 c.2
  unfold payload_of
  rw [h.header_length_frame, frame_v4, List.length_append, hheader,
    slice_append_right _ hheader.symm, List.take_length]

/-- The options a fragment carries. -/
theorem slice_tail (h : Splits4 buf off s) (c : ℕ × ℕ) :
    slice (frame_v4 buf off s c.1 c.2) (off + 20)
      (off + header_length off (frame_v4 buf off s c.1 c.2)) = tail_v4 buf off s c.1 := by
  have hheader := h.length_header c.1 c.2
  have hbase := h.length_base c.1
  obtain ⟨-, -, -, hle⟩ := h.ihl_bounds
  obtain ⟨hmin, -, -, -⟩ := h.ihl_bounds
  have htake : (buf.take (off + 20)).length = off + 20 := by
    rw [List.length_take]
    omega
  -- past the fixed header nothing is written over
  have hoctets : ∀ j, off + 20 ≤ j → j < off + (20 + (tail_v4 buf off s c.1).length) →
      (header_v4 buf off s c.1 c.2)[j]? = (buf.take (off + 20) ++ tail_v4 buf off s c.1)[j]? := by
    intro j hlo hhi
    rw [header_v4_eq, sealed_eq (by omega), stamped_getElem? (by omega), if_neg (by omega),
      if_neg (by omega), if_neg (by omega)]
    unfold base_v4
    rw [put_getElem? (by rw [List.length_append, htake, List.length_singleton]; omega),
      List.length_singleton, if_neg (by omega)]
  rw [h.header_length_frame, frame_v4, slice_append_left _ (by omega), slice_congr hoctets,
    ← Nat.add_assoc, slice_append_right _ htake.symm, List.take_length]

/-- Every frame the splitter makes carries its piece under a sound header. -/
theorem carries (h : Splits4 buf off s) {c : ℕ × ℕ} (hc : c ∈ cuts s.unit (payload_v4 buf off s).length) :
    CarriesPiece buf off (slice buf (off + 20) (off + s.ihl)) c.1
      (decide (¬ c.1 + c.2 < (payload_v4 buf off s).length)) (frame_v4 buf off s c.1 c.2) := by
  -- The piece is inside the payload and its offset fits thirteen bits; all the lengths follow from
  -- the split.
  have hpos : 0 < s.unit := Nat.lt_of_lt_of_le (by decide) h.unit_pos
  have hinside := (cuts_cut hpos (payload_v4 buf off s)).inside c hc
  have hdvd := dvd_of_mem_cuts hpos h.unit_dvd hc
  obtain ⟨-, hstart, hsize, -⟩ := mem_cuts_from hpos hc
  have hoffset := h.offset_le
  have hheader := h.length_header c.1 c.2
  have hbase := h.length_base c.1
  have hihl := h.header_length_frame (c := c)
  obtain ⟨hmin, hmax, -, -⟩ := h.ihl_bounds
  obtain ⟨htdvd, htail⟩ := h.tail_bounds c.1
  obtain ⟨hextent, hlen⟩ := h.frame_extent hinside (by omega)
  -- The fragment word is the one that was stamped.
  have hword : be16 (frame_v4 buf off s c.1 c.2) (off + 6) =
      fragment_word s.word (c.1 + c.2 < (payload_v4 buf off s).length ∨ (s.word &&& 0x2000 ≠ 0 : Bool))
        ((s.word &&& 0x1fff).toNat + c.1 / 8) := by
    rw [frame_v4, be16_append_left _ (by omega), header_v4_eq, sealed_eq (by omega),
      be16_stamped_word (by omega)]
  have hposition : (be16 (frame_v4 buf off s c.1 c.2) (off + 6) &&& 0x1fff).toNat
      = (s.word &&& 0x1fff).toNat + c.1 / 8 := by
    rw [hword, offset_fragment_word _ _ (by omega)]
  -- Header by header field: extent, checksum, offset, more-fragments, flags, options.
  refine ⟨by omega, ?_, ?_, ?_, ?_, ?_, ?_⟩
  · rw [h.frame_total (by omega)]
    omega
  · rw [hihl, frame_v4, slice_append_left _ (by omega), header_v4_eq]
    exact sealed_sum (by omega) (by omega) (by omega) (by omega) _ _
  · rw [hposition, ← h.word_eq]
    omega
  · rw [hposition]
    omega
  · rw [hword, more_fragment_word, ← h.word_eq]
    simp
  · rw [h.slice_tail]
    unfold tail_v4
    dsimp only
    by_cases h0 : c.1 = 0
    · rw [if_pos h0, if_pos h0]
    · rw [if_neg h0, if_neg h0]
      exact options_of_copied _

end Splits4

/-- **Fragments are well formed.** Where the split of an IPv4 datagram gives two frames or more,
each is a datagram that says what it is and carries its piece of the payload with the options a
fragment at its place has; and the pieces one behind the other are the payload. -/
theorem fragments_well_formed (L : Layers) (buf : Bytes) (link : ProtoId) (fragsize off : ℕ)
    (hip : ip_layer L buf link = some (.Ipv4, off))
    (hsplit : 2 ≤ (fragment L buf link fragsize).length) :
    ∃ ihl end_, v4_extent buf off = some (ihl, end_) ∧
      (fragment L buf link fragsize).flatMap (payload_of off) = slice buf (off + ihl) end_ ∧
      ∀ i frame, (fragment L buf link fragsize)[i]? = some frame →
        CarriesPiece buf off (slice buf (off + 20) (off + ihl))
          (((fragment L buf link fragsize).take i).flatMap (payload_of off)).length
          (decide (i + 1 = (fragment L buf link fragsize).length)) frame := by
  rw [fragment_eq_v4 hip] at hsplit ⊢
  rcases fragment_v4_cases buf off fragsize with hwhole | ⟨s, hs, hcuts⟩
  · rw [hwhole] at hsplit
    exact absurd hsplit (by simp)
  · rw [hcuts]
    have hpos : 0 < s.unit := Nat.lt_of_lt_of_le (by decide) hs.unit_pos
    -- The payloads of the frames are the pieces, so they join to the payload.
    have hpieces : ∀ cs : List (ℕ × ℕ), (cs.map fun c => frame_v4 buf off s c.1 c.2).flatMap
        (payload_of off) = cs.flatMap fun c => slice (payload_v4 buf off s) c.1 (c.1 + c.2) := by
      intro cs
      rw [List.flatMap_map]
      exact List.flatMap_congr fun c _ => hs.payload_of_frame c
    refine ⟨s.ihl, s.end_, hs.extent, ?_, fun i frame hframe => ?_⟩
    · rw [hpieces, cuts, flatMap_cuts_from hpos (by omega)]
      exact List.take_length
    · rw [List.getElem?_map] at hframe
      obtain ⟨c, hc, rfl⟩ := Option.map_eq_some_iff.1 hframe
      have hmem := List.mem_of_getElem? hc
      obtain ⟨-, hstart, -, -⟩ := mem_cuts_from hpos hmem
      -- The frames before this one carry the octets before its offset, and only the last one clears
      -- the bit.
      have hbefore := flatMap_take_cuts_from hpos hc
      have hlast := last_cut_iff hpos (by omega) hc
      have hlt : i < (cuts s.unit (payload_v4 buf off s).length).length :=
        (List.getElem?_eq_some_iff.1 hc).1
      have hat : ((((cuts s.unit (payload_v4 buf off s).length).map fun c =>
          frame_v4 buf off s c.1 c.2).take i).flatMap (payload_of off)).length = c.1 := by
        rw [← List.map_take, hpieces, cuts, hbefore, length_slice (by omega), Nat.sub_zero]
      have hend : decide (i + 1 = ((cuts s.unit (payload_v4 buf off s).length).map fun c =>
          frame_v4 buf off s c.1 c.2).length) = decide (¬ c.1 + c.2 < (payload_v4 buf off s).length) := by
        rw [decide_eq_decide, List.length_map, hlast]
        unfold cuts at hlt ⊢
        omega
      rw [hat, hend]
      exact hs.carries hmem

/-- The sample's three fragments, the options of the later ones its copied one. -/
theorem sample_fragments_well_formed :
    (∃ ihl end_, v4_extent sample_v4 14 = some (ihl, end_) ∧
      (fragment Layers.core sample_v4 .Ether 8).flatMap (payload_of 14)
        = slice sample_v4 (14 + ihl) end_ ∧
      ∀ i frame, (fragment Layers.core sample_v4 .Ether 8)[i]? = some frame →
        CarriesPiece sample_v4 14 (slice sample_v4 (14 + 20) (14 + ihl))
          (((fragment Layers.core sample_v4 .Ether 8).take i).flatMap (payload_of 14)).length
          (decide (i + 1 = (fragment Layers.core sample_v4 .Ether 8).length)) frame) ∧
    options_of (slice sample_v4 (14 + 20) (14 + 28)) = [[0x07, 4, 1, 2], [0x94, 4, 3, 4]] :=
  ⟨fragments_well_formed Layers.core sample_v4 .Ether 8 14 (by decide +kernel) (by decide +kernel),
    by decide +kernel⟩

end Wiry.Frag
