/-
`fragment_v4` against `inspect`: each frame it lays down carries its piece of the
payload, all of them under one key, and `assemble` puts the header back.

`Splits4` collects what the guards of the splitter leave, so that no later
proof unfolds it again. The header of a piece is then read word by word: its
lengths, its fragment word, its checksum.
-/
import Wiry.Frag.Cuts

set_option autoImplicit false

namespace Wiry.Frag

open Wiry.Packet

/-! ## Options -/

/-- The copied options are no longer than the options. -/
theorem length_copied_loop (n : ℕ) (opts : Bytes) : (copied_loop n opts).length ≤ opts.length := by
  fun_induction copied_loop n opts with
  | case1 => exact Nat.zero_le _
  | case2 => exact Nat.zero_le _
  | case3 => exact Nat.zero_le _
  | case4 n rest _ ih => exact Nat.le_succ_of_le ih
  | case5 => exact Nat.zero_le _
  | case6 n t _ _ len rest hbad =>
    rw [if_pos hbad]
    exact Nat.zero_le _
  | case7 n t _ _ len rest hgood ih =>
    rw [List.length_drop] at ih
    rw [if_neg hgood, List.length_append]
    split
    · rw [List.length_take]
      omega
    · rw [List.length_nil]
      omega

/-- The copied options fill whole words, and no more of them than the options did. -/
theorem length_copied_options {opts : Bytes} (h : 4 ∣ opts.length) :
    4 ∣ (copied_options opts).length ∧ (copied_options opts).length ≤ opts.length := by
  have hloop := length_copied_loop opts.length opts
  unfold copied_options
  dsimp only
  rw [List.length_append, List.length_replicate]
  generalize (copied_loop opts.length opts).length = m at hloop ⊢
  omega

/-! ## What is split -/

/-- What `split_v4` has seen to. -/
structure Splits4 (buf : Bytes) (off : ℕ) (s : Split4) : Prop where
  extent : v4_extent buf off = some (s.ihl, s.end_)
  word_eq : s.word = be16 buf (off + 6)
  dont_fragment : s.word &&& 0x4000 = 0
  unit_pos : 8 ≤ s.unit
  unit_dvd : 8 ∣ s.unit
  unit_le : s.ihl + s.unit ≤ MAX_DATAGRAM
  unit_lt : s.unit < (payload_v4 buf off s).length
  offset_le : (s.word &&& 0x1fff).toNat + ((payload_v4 buf off s).length - 1) / 8 ≤ 0x1fff

/-- What the splitter's guards leave: the facts every later lemma on the IPv4 frames uses. -/
theorem split_v4_eq_some {buf : Bytes} {off fragsize : ℕ} {s : Split4}
    (h : split_v4 buf off fragsize = some s) : Splits4 buf off s := by
  -- Guard by guard: the extent, the don't-fragment bit, the unit.
  unfold split_v4 at h
  cases hext : v4_extent buf off with
  | none => simp [hext] at h
  | some e =>
    obtain ⟨ihl, end_⟩ := e
    rw [hext] at h
    dsimp only at h
    split at h
    · exact absurd h nofun
    · rename_i hdf
      split at h
      · exact absurd h nofun
      · rename_i hunit
        split at h
        · exact absurd h nofun
        · rename_i hoff
          obtain rfl := Option.some.inj h
          have hdvd : 8 ∣ min (unit_of fragsize) ((MAX_DATAGRAM - ihl) / 8 * 8) := by
            unfold unit_of
            omega
          refine ⟨hext, rfl, not_not.1 hdf, ?_, hdvd, ?_, ?_, ?_⟩
          · dsimp only
            omega
          · dsimp only
            omega
          · unfold payload_v4
            dsimp only
            omega
          · unfold payload_v4
            dsimp only
            omega

theorem fragment_v4_of_split {buf : Bytes} {off fragsize : ℕ} {s : Split4}
    (h : split_v4 buf off fragsize = some s) : fragment_v4 buf off fragsize =
      (cuts s.unit (payload_v4 buf off s).length).map fun c => frame_v4 buf off s c.1 c.2 := by
  unfold fragment_v4
  rw [h]

theorem fragment_v4_cases (buf : Bytes) (off fragsize : ℕ) :
    fragment_v4 buf off fragsize = [buf] ∨
      ∃ s, Splits4 buf off s ∧ fragment_v4 buf off fragsize =
        (cuts s.unit (payload_v4 buf off s).length).map fun c => frame_v4 buf off s c.1 c.2 := by
  cases hsplit : split_v4 buf off fragsize with
  | none =>
    left
    unfold fragment_v4
    rw [hsplit]
  | some s => exact .inr ⟨s, split_v4_eq_some hsplit, fragment_v4_of_split hsplit⟩

theorem fragment_eq_v4 {L : Layers} {link : ProtoId} {buf : Bytes} {off : ℕ}
    (hip : ip_layer L buf link = some (.Ipv4, off)) (fragsize : ℕ) :
    fragment L buf link fragsize = fragment_v4 buf off fragsize := by
  unfold fragment
  rw [hip]

namespace Splits4

variable {buf : Bytes} {off : ℕ} {s : Split4}

theorem ihl_eq (h : Splits4 buf off s) : s.ihl = max ((buf.getD off 0 &&& 0x0f).toNat * 4) 20 :=
  (v4_extent_eq_some_iff.1 h.extent).1

theorem ihl_bounds (h : Splits4 buf off s) :
    20 ≤ s.ihl ∧ s.ihl ≤ 60 ∧ 4 ∣ s.ihl ∧ off + s.ihl ≤ buf.length := by
  have hnibble : (buf.getD off 0 &&& 0x0f).toNat = (buf.getD off 0).toNat % 16 :=
    (UInt8.toNat_and _ _).trans (Nat.and_two_pow_sub_one_eq_mod _ 4)
  have hihl := h.ihl_eq
  have hle := (v4_extent_eq_some_iff.1 h.extent).2.1
  rw [hnibble] at hihl
  omega

theorem length_payload (h : Splits4 buf off s) :
    (payload_v4 buf off s).length = s.end_ - (off + s.ihl) := by
  rw [payload_v4, length_slice (v4_extent_bounds h.extent).2.2]

/-- The options of any fragment fill whole words behind the fixed header, up to fifteen in all. -/
theorem tail_bounds (h : Splits4 buf off s) (at_ : ℕ) :
    4 ∣ (tail_v4 buf off s at_).length ∧ (tail_v4 buf off s at_).length ≤ s.ihl - 20 := by
  obtain ⟨hmin, hmax, hdvd, hle⟩ := h.ihl_bounds
  have hopts : (slice buf (off + 20) (off + s.ihl)).length = s.ihl - 20 := by
    rw [length_slice hle]
    omega
  unfold tail_v4
  dsimp only
  split
  · omega
  · have hwords : 4 ∣ (slice buf (off + 20) (off + s.ihl)).length := by omega
    have hcopied := length_copied_options hwords
    omega

end Splits4

/-! ## Headers sealed with a checksum -/

/-- A header of `ihl` octets at `off` with its Total Length, its flags and offset and its checksum
written in, as both the split and the reassembly leave it. -/
def sealed (frame : Bytes) (off ihl total : ℕ) (w : UInt16) : Bytes :=
  let frame := put frame (off + 2) (octets_of 2 total)
  let frame := put frame (off + 6) (octets_of 2 w.toNat)
  let frame := put frame (off + 10) [0, 0]
  put frame (off + 10) (octets_of 2 (ones_complement (slice frame off (off + ihl))).toNat)

/-- The three words of a header that are written. -/
def stamped (frame : Bytes) (off total w ck : ℕ) : Bytes :=
  put (put (put frame (off + 2) (octets_of 2 total)) (off + 6) (octets_of 2 w)) (off + 10)
    (octets_of 2 ck)

section Sealed

variable {frame : Bytes} {off ihl total total' w w' ck ck' : ℕ}

theorem length_put_word {i : ℕ} (h : i + 2 ≤ frame.length) (v : ℕ) :
    (put frame i (octets_of 2 v)).length = frame.length :=
  length_put (by rw [length_octets_of]; exact h)

theorem length_stamping (h : off + 20 ≤ frame.length) (total w : ℕ) :
    (put frame (off + 2) (octets_of 2 total)).length = frame.length ∧
      (put (put frame (off + 2) (octets_of 2 total)) (off + 6) (octets_of 2 w)).length =
        frame.length := by
  have h2 := length_put_word (i := off + 2) (show off + 2 + 2 ≤ frame.length by omega) total
  exact ⟨h2, by rw [length_put_word (by omega), h2]⟩

/-- A stamp keeps the length. -/
theorem length_stamped (h : off + 20 ≤ frame.length) (total w ck : ℕ) :
    (stamped frame off total w ck).length = frame.length := by
  obtain ⟨h2, h6⟩ := length_stamping h total w
  unfold stamped
  rw [length_put_word (by omega), h6]

theorem stamped_getElem? (h : off + 20 ≤ frame.length) (total w ck j : ℕ) :
    (stamped frame off total w ck)[j]? =
      if off + 10 ≤ j ∧ j < off + 12 then (octets_of 2 ck)[j - (off + 10)]?
      else if off + 6 ≤ j ∧ j < off + 8 then (octets_of 2 w)[j - (off + 6)]?
      else if off + 2 ≤ j ∧ j < off + 4 then (octets_of 2 total)[j - (off + 2)]?
      else frame[j]? := by
  obtain ⟨h2, h6⟩ := length_stamping h total w
  unfold stamped
  rw [put_getElem? (by rw [length_octets_of]; omega), put_getElem? (by rw [length_octets_of]; omega),
    put_getElem? (by rw [length_octets_of]; omega)]
  simp only [length_octets_of]

/-- A header stamped again keeps nothing of the first stamp. -/
theorem stamped_stamped (h : off + 20 ≤ frame.length) :
    stamped (stamped frame off total w ck) off total' w' ck' = stamped frame off total' w' ck' := by
  apply List.ext_getElem?
  intro j
  rw [stamped_getElem? (by rw [length_stamped h]; exact h), stamped_getElem? h, stamped_getElem? h]
  split
  · rfl
  · split
    · rfl
    · split
      · rfl
      · rfl

/-- Stamping the words that are there changes nothing. -/
theorem stamped_self (h : off + 20 ≤ frame.length) :
    stamped frame off (be16 frame (off + 2)).toNat (be16 frame (off + 6)).toNat
      (be16 frame (off + 10)).toNat = frame := by
  unfold stamped
  rw [put_be16 (by omega), put_be16 (by omega), put_be16 (by omega)]

/-- The total length is read back. -/
theorem be16_stamped_total (h : off + 20 ≤ frame.length) (htotal : total < 2 ^ 16) (w ck : ℕ) :
    (be16 (stamped frame off total w ck) (off + 2)).toNat = total := by
  obtain ⟨h2, h6⟩ := length_stamping h total w
  unfold stamped
  rw [be16_put_of_apart (by rw [length_octets_of]; omega) (by omega),
    be16_put_of_apart (by rw [length_octets_of]; omega) (by rw [length_octets_of]; omega),
    be16_put_octets (by omega) htotal]

/-- So is the fragment word. -/
theorem be16_stamped_word (h : off + 20 ≤ frame.length) (total : ℕ) (w : UInt16) (ck : ℕ) :
    be16 (stamped frame off total w.toNat ck) (off + 6) = w := by
  obtain ⟨h2, h6⟩ := length_stamping h total w.toNat
  unfold stamped
  rw [be16_put_of_apart (by rw [length_octets_of]; omega) (by omega), be16_put_word (by omega)]

/-- Sealing stamps a checksum. -/
theorem sealed_eq (h : off + 20 ≤ frame.length) (ihl total : ℕ) (w : UInt16) :
    sealed frame off ihl total w = stamped frame off total w.toNat
      (ones_complement (slice (stamped frame off total w.toNat 0) off (off + ihl))).toNat := by
  obtain ⟨h2, h6⟩ := length_stamping h total w.toNat
  exact put_put (show off + 10 + 2 ≤ _ by omega) rfl

end Sealed

/-! ## Flags and offset -/

/-- The flags and the offset of a fragment, from the word of the datagram it is cut from. -/
def fragment_word (word : UInt16) (mf : Bool) (n : ℕ) : UInt16 :=
  (word &&& 0xc000) ||| (if mf then 0x2000 else 0) ||| (UInt16.ofNat n &&& 0x1fff)

theorem mask_or16 (a b c : UInt16) : (a ||| b) &&& c = a &&& c ||| b &&& c :=
  UInt16.toBitVec_inj.1 BitVec.and_or_distrib_right

theorem mask_or8 (a b c : UInt8) : (a ||| b) &&& c = a &&& c ||| b &&& c :=
  UInt8.toBitVec_inj.1 BitVec.and_or_distrib_right

section Word

variable (word : UInt16) (mf : Bool) {n : ℕ}

/-- The word holds the offset in its thirteen bits. -/
theorem offset_fragment_word (hn : n ≤ 0x1fff) :
    (fragment_word word mf n &&& 0x1fff).toNat = n := by
  have hmasks : word &&& 0xc000 &&& 0x1fff = 0 := by
    rw [UInt16.and_assoc]
    exact UInt16.and_zero
  have hflag : (if mf then (0x2000 : UInt16) else 0) &&& 0x1fff = 0 := by
    cases mf with
    | true => rfl
    | false => rfl
  unfold fragment_word
  rw [mask_or16, mask_or16, hmasks, hflag, UInt16.or_self,
    UInt16.zero_or, UInt16.and_assoc, UInt16.and_self]
  have hmod : (UInt16.ofNat n &&& (0x1fff : UInt16)).toNat = (UInt16.ofNat n).toNat % 2 ^ 13 :=
    (UInt16.toNat_and _ _).trans (Nat.and_two_pow_sub_one_eq_mod _ 13)
  rw [hmod, UInt16.toNat_ofNat']
  omega

/-- The word holds the more-fragments bit. -/
theorem more_fragment_word (n : ℕ) : fragment_word word mf n &&& 0x2000 ≠ 0 ↔ mf = true := by
  have hmasks : word &&& 0xc000 &&& 0x2000 = 0 := by
    rw [UInt16.and_assoc]
    exact UInt16.and_zero
  have hoffset : UInt16.ofNat n &&& 0x1fff &&& 0x2000 = 0 := by
    rw [UInt16.and_assoc]
    exact UInt16.and_zero
  unfold fragment_word
  rw [mask_or16, mask_or16, hmasks, hoffset, UInt16.zero_or,
    UInt16.or_zero]
  cases mf with
  | true => decide
  | false => decide

theorem flags_fragment_word (n : ℕ) : fragment_word word mf n &&& 0xc000 = word &&& 0xc000 := by
  have hflag : (if mf then (0x2000 : UInt16) else 0) &&& 0xc000 = 0 := by
    cases mf with
    | true => rfl
    | false => rfl
  have hoffset : UInt16.ofNat n &&& 0x1fff &&& 0xc000 = 0 := by
    rw [UInt16.and_assoc]
    exact UInt16.and_zero
  unfold fragment_word
  rw [mask_or16, mask_or16, hflag, hoffset, UInt16.or_zero,
    UInt16.or_zero, UInt16.and_assoc, UInt16.and_self]

end Word

/-- The first octet of a header of `n` words: the version is the datagram's. -/
theorem length_nibble (b : UInt8) {n : ℕ} (hn : n ≤ 15) :
    ((b &&& 0xf0 ||| UInt8.ofNat n) &&& 0x0f).toNat = n := by
  have hversion : b &&& 0xf0 &&& 0x0f = 0 := by
    rw [UInt8.and_assoc]
    exact UInt8.and_zero
  have hmod : (UInt8.ofNat n &&& (0x0f : UInt8)).toNat = (UInt8.ofNat n).toNat % 2 ^ 4 :=
    (UInt8.toNat_and _ _).trans (Nat.and_two_pow_sub_one_eq_mod _ 4)
  rw [mask_or8, hversion, UInt8.zero_or, hmod, UInt8.toNat_ofNat']
  omega

/-! ## One fragment -/

section Frame

variable {buf : Bytes} {off : ℕ} {s : Split4} {at_ n : ℕ}

/-- The fixed header and the options of a fragment, the header's length written in. -/
def base_v4 (buf : Bytes) (off : ℕ) (s : Split4) (at_ : ℕ) : Bytes :=
  put (buf.take (off + 20) ++ tail_v4 buf off s at_) off
    [((buf.take (off + 20) ++ tail_v4 buf off s at_).getD off 0 &&& 0xf0) |||
      UInt8.ofNat ((20 + (tail_v4 buf off s at_).length) / 4)]

/-- The key every fragment of a datagram is found under. -/
def key_v4 (buf : Bytes) (off : ℕ) : Key :=
  ⟨wide (slice buf (off + 12) (off + 16)), wide (slice buf (off + 16) (off + 20)),
    (be16 buf (off + 4)).toUInt32, buf.getD (off + 9) 0, false⟩

theorem header_v4_eq (buf : Bytes) (off : ℕ) (s : Split4) (at_ n : ℕ) :
    header_v4 buf off s at_ n =
      sealed (base_v4 buf off s at_) off (20 + (tail_v4 buf off s at_).length)
        (20 + (tail_v4 buf off s at_).length + n)
        (fragment_word s.word (at_ + n < (payload_v4 buf off s).length ∨ (s.word &&& 0x2000 ≠ 0 : Bool))
          ((s.word &&& 0x1fff).toNat + at_ / 8)) := rfl

namespace Splits4

/-- The base header with its options. -/
theorem length_base (h : Splits4 buf off s) (at_ : ℕ) :
    (base_v4 buf off s at_).length = off + 20 + (tail_v4 buf off s at_).length := by
  obtain ⟨hmin, -, -, hle⟩ := h.ihl_bounds
  have hlen : (buf.take (off + 20) ++ tail_v4 buf off s at_).length =
      off + 20 + (tail_v4 buf off s at_).length := by
    rw [List.length_append, List.length_take]
    omega
  unfold base_v4
  rw [length_put (by rw [hlen, List.length_singleton]; omega), hlen]

theorem base_getElem? (h : Splits4 buf off s) {j : ℕ} (hj : j < off + 20) (hne : j ≠ off) :
    (base_v4 buf off s at_)[j]? = buf[j]? := by
  obtain ⟨hmin, -, -, hle⟩ := h.ihl_bounds
  have htake : (buf.take (off + 20)).length = off + 20 := by
    rw [List.length_take]
    omega
  unfold base_v4
  rw [put_getElem? (by rw [List.length_append, htake, List.length_singleton]; omega),
    List.length_singleton, if_neg (by omega), List.getElem?_append_left (by omega),
    List.getElem?_take_of_lt hj]

/-- The first octet carries the length of the header with the options that are copied. -/
theorem base_first (h : Splits4 buf off s) (at_ : ℕ) :
    (base_v4 buf off s at_).getD off 0 =
      ((buf.getD off 0 &&& 0xf0) ||| UInt8.ofNat ((20 + (tail_v4 buf off s at_).length) / 4)) := by
  obtain ⟨hmin, -, -, hle⟩ := h.ihl_bounds
  have htake : (buf.take (off + 20)).length = off + 20 := by
    rw [List.length_take]
    omega
  have hfirst : (buf.take (off + 20) ++ tail_v4 buf off s at_).getD off 0 = buf.getD off 0 := by
    rw [getD_append_left _ (by omega), List.getD_eq_getElem?_getD, List.getD_eq_getElem?_getD,
      List.getElem?_take_of_lt (by omega)]
  unfold base_v4
  rw [List.getD_eq_getElem?_getD,
    put_getElem? (by rw [List.length_append, htake, List.length_singleton]; omega),
    List.length_singleton, if_pos (by omega), Nat.sub_self, hfirst]
  rfl

theorem length_header (h : Splits4 buf off s) (at_ n : ℕ) :
    (header_v4 buf off s at_ n).length = off + (20 + (tail_v4 buf off s at_).length) := by
  have hbase := h.length_base at_
  rw [header_v4_eq, sealed_eq (by omega), length_stamped (by omega), hbase]
  omega

/-- What a fragment leaves of the datagram's fixed header. -/
theorem header_getElem? (h : Splits4 buf off s) {j : ℕ}
    (hj : j < off ∨ off + 4 ≤ j ∧ j < off + 6 ∨ off + 8 ≤ j ∧ j < off + 10 ∨
      off + 12 ≤ j ∧ j < off + 20) :
    (header_v4 buf off s at_ n)[j]? = buf[j]? := by
  have hbase := h.length_base at_
  rw [header_v4_eq, sealed_eq (by omega), stamped_getElem? (by omega), if_neg (by omega),
    if_neg (by omega), if_neg (by omega)]
  exact h.base_getElem? (by omega) (by omega)

theorem header_first (h : Splits4 buf off s) (at_ n : ℕ) :
    (header_v4 buf off s at_ n).getD off 0 =
      ((buf.getD off 0 &&& 0xf0) ||| UInt8.ofNat ((20 + (tail_v4 buf off s at_).length) / 4)) := by
  have hbase := h.length_base at_
  rw [← h.base_first at_, List.getD_eq_getElem?_getD, List.getD_eq_getElem?_getD, header_v4_eq,
    sealed_eq (by omega), stamped_getElem? (by omega), if_neg (by omega), if_neg (by omega),
    if_neg (by omega)]

/-- The Total Length of a fragment counts its header and its piece. -/
theorem frame_total (h : Splits4 buf off s) {c : ℕ × ℕ} (hunit : c.2 ≤ s.unit) :
    (be16 (frame_v4 buf off s c.1 c.2) (off + 2)).toNat =
      20 + (tail_v4 buf off s c.1).length + c.2 := by
  have hheader := h.length_header c.1 c.2
  have hbase := h.length_base c.1
  obtain ⟨-, htail⟩ := h.tail_bounds c.1
  obtain ⟨hmin, -, -, -⟩ := h.ihl_bounds
  have hunitle := h.unit_le
  have hmax : MAX_DATAGRAM = 65535 := rfl
  rw [frame_v4, be16_append_left _ (by omega), header_v4_eq, sealed_eq (by omega),
    be16_stamped_total (by omega) (by omega)]

theorem frame_first (h : Splits4 buf off s) (c : ℕ × ℕ) :
    ((frame_v4 buf off s c.1 c.2).getD off 0 &&& 0x0f).toNat =
      (20 + (tail_v4 buf off s c.1).length) / 4 := by
  have hheader := h.length_header c.1 c.2
  obtain ⟨-, htail⟩ := h.tail_bounds c.1
  obtain ⟨hmin, hmax, -, -⟩ := h.ihl_bounds
  rw [frame_v4, getD_append_left _ (by omega), h.header_first, length_nibble _ (by omega)]

/-- A fragment's header and the piece behind it are all there is to it. -/
theorem frame_extent (h : Splits4 buf off s) {c : ℕ × ℕ} (hc : Inside (payload_v4 buf off s) c)
    (hunit : c.2 ≤ s.unit) :
    v4_extent (frame_v4 buf off s c.1 c.2) off =
      some (20 + (tail_v4 buf off s c.1).length, (frame_v4 buf off s c.1 c.2).length) ∧
    (frame_v4 buf off s c.1 c.2).length = off + (20 + (tail_v4 buf off s c.1).length) + c.2 := by
  have hheader := h.length_header c.1 c.2
  obtain ⟨hdvd, htail⟩ := h.tail_bounds c.1
  have hpiece : (slice (payload_v4 buf off s) c.1 (c.1 + c.2)).length = c.2 := by
    rw [length_slice hc.le]
    omega
  have hlen : (frame_v4 buf off s c.1 c.2).length =
      off + (20 + (tail_v4 buf off s c.1).length) + c.2 := by
    rw [frame_v4, List.length_append, hheader, hpiece]
  have htotal := h.frame_total hunit
  refine ⟨v4_extent_eq_some_iff.2 ⟨?_, by omega, ?_⟩, hlen⟩
  · rw [h.frame_first]
    omega
  · rw [htotal, if_pos ⟨by omega, by omega⟩]
    omega

/-- **Each fragment carries its piece**, under the datagram's own key. -/
theorem part (h : Splits4 buf off s) (hbase : s.word &&& 0x1fff = 0) (hmore : s.word &&& 0x2000 = 0)
    {L : Layers} {link : ProtoId} {c : ℕ × ℕ}
    (hc : c ∈ cuts s.unit (payload_v4 buf off s).length)
    (hip : ip_layer L (frame_v4 buf off s c.1 c.2) link = some (.Ipv4, off)) :
    ∃ f, Part L link (key_v4 buf off) ⟨header_v4 buf off s 0 s.unit, off, false⟩
      (payload_v4 buf off s) (frame_v4 buf off s c.1 c.2) c f := by
  have hpos : 0 < s.unit := Nat.lt_of_lt_of_le (by decide) h.unit_pos
  have hinside := (cuts_cut hpos (payload_v4 buf off s)).inside c hc
  have hdvd := dvd_of_mem_cuts hpos h.unit_dvd hc
  obtain ⟨-, hstart, hsize, -⟩ := mem_cuts_from hpos hc
  have hoffset := h.offset_le
  have hunitlt := h.unit_lt
  have hheader := h.length_header c.1 c.2
  have hbaselen := h.length_base c.1
  obtain ⟨hextent, hlen⟩ := h.frame_extent hinside (by omega)
  have hzero : (s.word &&& 0x1fff).toNat = 0 := by rw [hbase]; rfl
  -- the word of the fragment
  obtain ⟨w, hw⟩ : ∃ w, w = fragment_word s.word (decide (c.1 + c.2 < (payload_v4 buf off s).length))
      (c.1 / 8) := ⟨_, rfl⟩
  have hword : be16 (frame_v4 buf off s c.1 c.2) (off + 6) = w := by
    rw [frame_v4, be16_append_left _ (by omega), header_v4_eq, sealed_eq (by omega),
      be16_stamped_word (by omega), hw, hzero, Nat.zero_add, hmore]
    simp
  have hat : (w &&& 0x1fff).toNat * 8 = c.1 := by
    rw [hw, offset_fragment_word _ _ (by omega)]
    omega
  have hflag : (w &&& 0x2000 ≠ 0) ↔ c.1 + c.2 < (payload_v4 buf off s).length := by
    rw [hw, more_fragment_word]
    exact decide_eq_true_iff
  have hoctet : ∀ j, off + 4 ≤ j → j < off + 20 → ¬ (off + 6 ≤ j ∧ j < off + 8) →
      ¬ (off + 10 ≤ j ∧ j < off + 12) → (frame_v4 buf off s c.1 c.2)[j]? = buf[j]? := by
    intro j hlo hhi h6 h10
    rw [frame_v4, List.getElem?_append_left (by omega)]
    exact h.header_getElem? (by omega)
  have hnot : ¬ (c.1 = 0 ∧ decide (w &&& 0x2000 ≠ 0) = false) := by
    rintro ⟨hc0, hlast⟩
    have hcut := cut_zero hpos hunitlt hc hc0
    rw [decide_eq_false_iff_not, hflag, hcut] at hlast
    omega
  have hfound : inspect L (frame_v4 buf off s c.1 c.2) link =
      inspect_v4 (frame_v4 buf off s c.1 c.2) off := by
    unfold inspect
    rw [hip]
  unfold inspect_v4 at hfound
  rw [hextent] at hfound
  dsimp only at hfound
  rw [hword, hat, if_neg hnot] at hfound
  refine ⟨_, hfound, ?_, rfl, ?_, ?_, ?_⟩
  · have hsrc : slice (frame_v4 buf off s c.1 c.2) (off + 12) (off + 16) =
        slice buf (off + 12) (off + 16) := by
      apply slice_congr
      intro j hlo hhi
      exact hoctet j (by omega) (by omega) (by omega) (by omega)
    have hdst : slice (frame_v4 buf off s c.1 c.2) (off + 16) (off + 20) =
        slice buf (off + 16) (off + 20) := by
      apply slice_congr
      intro j hlo hhi
      exact hoctet j (by omega) (by omega) (by omega) (by omega)
    have hid : be16 (frame_v4 buf off s c.1 c.2) (off + 4) = be16 buf (off + 4) := by
      apply be16_congr
      intro j hj
      exact hoctet _ (by omega) (by omega) (by omega) (by omega)
    have hproto : (frame_v4 buf off s c.1 c.2).getD (off + 9) 0 = buf.getD (off + 9) 0 := by
      rw [List.getD_eq_getElem?_getD, List.getD_eq_getElem?_getD,
        hoctet _ (by omega) (by omega) (by omega) (by omega)]
    unfold key_v4
    rw [← hsrc, ← hdst, ← hid, ← hproto]
  · have hpiece : (slice (payload_v4 buf off s) c.1 (c.1 + c.2)).length = c.2 := by
      rw [length_slice hinside.le]
      omega
    rw [Found.data]
    dsimp only
    rw [hlen, frame_v4, slice_append_right _ hheader.symm, List.take_of_length_le (by omega)]
  · dsimp only
    rw [decide_eq_decide]
    exact hflag
  · dsimp only
    by_cases hc0 : c.1 = 0
    · rw [if_pos hc0, if_pos hc0]
      have hcut := cut_zero hpos hunitlt hc hc0
      rw [frame_v4, List.take_append_of_le_length (by omega), ← hheader, List.take_length, hcut]
    · rw [if_neg hc0, if_neg hc0]

/-! ## The datagram put back -/

theorem length_tail_zero (h : Splits4 buf off s) : 20 + (tail_v4 buf off s 0).length = s.ihl := by
  obtain ⟨hmin, -, -, hle⟩ := h.ihl_bounds
  have hopts : (slice buf (off + 20) (off + s.ihl)).length = s.ihl - 20 := by
    rw [length_slice hle]
    omega
  show 20 + (slice buf (off + 20) (off + s.ihl)).length = s.ihl
  omega

end Splits4

end Frame

theorem sealed_sealed {frame : Bytes} {off : ℕ} (h : off + 20 ≤ frame.length)
    (ihl total total' : ℕ) (w w' : UInt16) :
    sealed (sealed frame off ihl total w) off ihl total' w' = sealed frame off ihl total' w' := by
  rw [sealed_eq h ihl total w, sealed_eq (by rw [length_stamped h]; exact h), sealed_eq h,
    stamped_stamped h, stamped_stamped h]

/-- The datagram `assemble` makes of the pieces of a split. -/
def whole_v4 (buf : Bytes) (off : ℕ) (s : Split4) : Bytes :=
  sealed (base_v4 buf off s 0) off s.ihl (s.ihl + (payload_v4 buf off s).length) (s.word &&& 0xc000) ++
    payload_v4 buf off s

namespace Splits4

variable {buf : Bytes} {off : ℕ} {s : Split4}

/-- A group with the head and the whole payload assembles to the original datagram, or to nothing
when that is too long. -/
theorem assemble (h : Splits4 buf off s) {g : Group}
    (hhead : g.head = some ⟨header_v4 buf off s 0 s.unit, off, false⟩)
    (hdata : g.data = payload_v4 buf off s) :
    g.assemble = if s.ihl + (payload_v4 buf off s).length > MAX_DATAGRAM then none
      else some (whole_v4 buf off s) := by
  have htail := h.length_tail_zero
  have hheader := h.length_header 0 s.unit
  have hbase := h.length_base 0
  obtain ⟨hmin, -, -, -⟩ := h.ihl_bounds
  -- The flags word of the head is restored but for the fragment's own bits.
  have hihl : (header_v4 buf off s 0 s.unit).length - off = s.ihl := by omega
  have hword : be16 (put (header_v4 buf off s 0 s.unit) (off + 2)
      (octets_of 2 (s.ihl + (payload_v4 buf off s).length))) (off + 6) &&& 0xc000 =
      s.word &&& 0xc000 := by
    rw [be16_put_of_apart (by rw [length_octets_of]; omega) (by rw [length_octets_of]; omega),
      header_v4_eq, sealed_eq (by omega), be16_stamped_word (by omega), flags_fragment_word]
  unfold Group.assemble
  rw [hhead, hdata]
  dsimp only
  rw [if_pos (by omega), hihl]
  -- Too long to be an IPv4 datagram, or sealed again with the new length.
  by_cases hlong : s.ihl + (payload_v4 buf off s).length > MAX_DATAGRAM
  · rw [if_pos hlong, if_pos hlong]
  · rw [if_neg hlong, if_neg hlong, hword]
    show some (sealed (header_v4 buf off s 0 s.unit) off s.ihl _ _ ++ _) = some (whole_v4 buf off s)
    rw [header_v4_eq, htail, sealed_sealed (by omega)]
    rfl

theorem length_whole (h : Splits4 buf off s) :
    (whole_v4 buf off s).length = off + s.ihl + (payload_v4 buf off s).length := by
  have htail := h.length_tail_zero
  have hbase := h.length_base 0
  rw [whole_v4, List.length_append, sealed_eq (by omega), length_stamped (by omega)]
  omega

/-- The datagram put back says of itself what it holds. -/
theorem whole_extent (h : Splits4 buf off s)
    (hlen : s.ihl + (payload_v4 buf off s).length ≤ MAX_DATAGRAM) :
    v4_extent (whole_v4 buf off s) off = some (s.ihl, (whole_v4 buf off s).length) ∧
      slice (whole_v4 buf off s) (off + s.ihl) (whole_v4 buf off s).length =
        payload_v4 buf off s := by
  have htail := h.length_tail_zero
  have hbase := h.length_base 0
  have hwhole := h.length_whole
  obtain ⟨hmin, hmax, hdvd, -⟩ := h.ihl_bounds
  have hdatagram : MAX_DATAGRAM = 65535 := rfl
  -- The sealed header keeps its length, and its total length is the datagram's.
  have hsealed : (sealed (base_v4 buf off s 0) off s.ihl (s.ihl + (payload_v4 buf off s).length)
      (s.word &&& 0xc000)).length = off + s.ihl := by
    rw [sealed_eq (by omega), length_stamped (by omega)]
    omega
  have htotal : (be16 (whole_v4 buf off s) (off + 2)).toNat =
      s.ihl + (payload_v4 buf off s).length := by
    rw [whole_v4, be16_append_left _ (by omega), sealed_eq (by omega),
      be16_stamped_total (by omega) (by omega)]
  -- The header length is written for the whole header with its options.
  have hfirst : ((whole_v4 buf off s).getD off 0 &&& 0x0f).toNat = s.ihl / 4 := by
    have hget : (whole_v4 buf off s).getD off 0 = (base_v4 buf off s 0).getD off 0 := by
      rw [whole_v4, getD_append_left _ (by omega), List.getD_eq_getElem?_getD,
        List.getD_eq_getElem?_getD, sealed_eq (by omega), stamped_getElem? (by omega),
        if_neg (by omega), if_neg (by omega), if_neg (by omega)]
    rw [hget, h.base_first, htail, length_nibble _ (by omega)]
  refine ⟨v4_extent_eq_some_iff.2 ⟨?_, by omega, ?_⟩, ?_⟩
  · rw [hfirst]
    omega
  · rw [htotal, if_pos ⟨by omega, by omega⟩]
    omega
  · rw [hwhole, whole_v4, slice_append_right _ hsealed.symm, List.take_length]

/-- A header of five words at least keeps its first octet. -/
theorem base_zero (h : Splits4 buf off s) (hnibble : 5 ≤ (buf.getD off 0 &&& 0x0f).toNat) :
    base_v4 buf off s 0 = buf.take (off + s.ihl) := by
  have htail := h.length_tail_zero
  obtain ⟨hmin, -, -, hle⟩ := h.ihl_bounds
  have hihl := h.ihl_eq
  have hopts : buf.take (off + 20) ++ tail_v4 buf off s 0 = buf.take (off + s.ihl) :=
    take_append_slice buf (show off + 20 ≤ off + s.ihl by omega)
  have hget : (buf.take (off + s.ihl)).getD off 0 = buf.getD off 0 := by
    rw [List.getD_eq_getElem?_getD, List.getD_eq_getElem?_getD, List.getElem?_take_of_lt (by omega)]
  -- With the options kept the header length is the one that was there.
  have hoctet : (buf.getD off 0 &&& 0xf0) ||| UInt8.ofNat (s.ihl / 4) = buf.getD off 0 := by
    have hwords : s.ihl / 4 = (buf.getD off 0 &&& 0x0f).toNat := by omega
    have hsplit : buf.getD off 0 &&& (0xf0 ||| 0x0f) =
        buf.getD off 0 &&& 0xf0 ||| buf.getD off 0 &&& 0x0f :=
      UInt8.toBitVec_inj.1 BitVec.and_or_distrib_left
    rw [hwords, UInt8.ofNat_toNat, ← hsplit]
    exact UInt8.and_neg_one
  unfold base_v4
  rw [hopts, hget, htail, hoctet]
  -- writing an octet over itself changes nothing
  apply put_self
  · rw [List.length_take, List.length_singleton]
    omega
  · intro n hn
    obtain rfl : n = 0 := by simpa using hn
    have hlt : off < (buf.take (off + s.ihl)).length := by
      rw [List.length_take]
      omega
    rw [Nat.add_zero, getElem?_eq_getD hlt, hget]
    rfl

/-- A header that is well formed is put back as it was. -/
theorem whole_eq (h : Splits4 buf off s) (hnibble : 5 ≤ (buf.getD off 0 &&& 0x0f).toNat)
    (htotal : off + (be16 buf (off + 2)).toNat = s.end_)
    (hflags : be16 buf (off + 6) &&& 0x3fff = 0)
    (hsum : be16 buf (off + 10) =
      ones_complement (slice (put buf (off + 10) [0, 0]) off (off + s.ihl))) :
    whole_v4 buf off s = buf.take s.end_ := by
  -- Every word the assembly rewrites holds its old value already: length, flags, checksum.
  obtain ⟨hmin, -, -, hle⟩ := h.ihl_bounds
  obtain ⟨-, hstart, hend⟩ := v4_extent_bounds h.extent
  have hpayload := h.length_payload
  have htake : (buf.take (off + s.ihl)).length = off + s.ihl := by
    rw [List.length_take]
    omega
  have hlen : s.ihl + (payload_v4 buf off s).length = (be16 (buf.take (off + s.ihl)) (off + 2)).toNat := by
    rw [be16_take _ (by omega)]
    omega
  have hword : s.word &&& 0xc000 = be16 (buf.take (off + s.ihl)) (off + 6) := by
    have hsplit : be16 buf (off + 6) &&& (0xc000 ||| 0x3fff) =
        be16 buf (off + 6) &&& 0xc000 ||| be16 buf (off + 6) &&& 0x3fff :=
      UInt16.toBitVec_inj.1 BitVec.and_or_distrib_left
    rw [hflags, UInt16.or_zero] at hsplit
    rw [h.word_eq, be16_take _ (by omega), ← hsplit]
    exact UInt16.and_neg_one
  -- The stamp with a zero checksum is the header with its checksum zeroed.
  have hzeroed : stamped (buf.take (off + s.ihl)) off
      (be16 (buf.take (off + s.ihl)) (off + 2)).toNat
      (be16 (buf.take (off + s.ihl)) (off + 6)).toNat 0 =
      put (buf.take (off + s.ihl)) (off + 10) [0, 0] := by
    unfold stamped
    rw [put_be16 (by omega), put_be16 (by omega)]
    rfl
  have hslice : slice (put (buf.take (off + s.ihl)) (off + 10) [0, 0]) off (off + s.ihl) =
      slice (put buf (off + 10) [0, 0]) off (off + s.ihl) := by
    have hsplit : buf = buf.take (off + s.ihl) ++ buf.drop (off + s.ihl) :=
      (List.take_append_drop _ _).symm
    have htwo : off + 10 + [(0 : UInt8), 0].length ≤ (buf.take (off + s.ihl)).length := by
      simp only [List.length_cons, List.length_nil]
      omega
    conv_rhs => rw [hsplit, put_append_left _ htwo]
    rw [slice_append_left _ (by rw [length_put htwo]; omega)]
  have hck : ones_complement (slice (put (buf.take (off + s.ihl)) (off + 10) [0, 0]) off
      (off + s.ihl)) = be16 (buf.take (off + s.ihl)) (off + 10) := by
    rw [hslice, ← hsum, be16_take _ (by omega)]
  unfold whole_v4
  rw [h.base_zero hnibble, hlen, hword, sealed_eq (by omega), hzeroed, hck,
    stamped_self (by omega)]
  exact take_append_slice buf hstart

end Splits4

end Wiry.Frag
