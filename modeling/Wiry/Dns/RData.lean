/-
Two fields of DNS records whose octets are no plain integer: the type bitmaps of `RRlist2bitmap` and
`bitmap2RRlist` (`python/wiry/layers/dns.py`) and of `decode_type_bitmap` (`layers/dns.rs`), and the
48 bits of `TimeSignedField`.
-/
import Mathlib.Data.Finset.Sort
import Mathlib.Tactic.IntervalCases
import Wiry.Dns.Records
import Wiry.Packet.Octets

set_option autoImplicit false

namespace Wiry.Dns

open Packet (Bytes octets_of slice slice_checked)

/-! ## A sorted list cut at bounds -/

section Cuts

variable {α : Type*} [LinearOrder α]

/-- The elements from `a` on that are below `b`. -/
def between (l : List α) (a b : α) : List α := l.filter fun x => a ≤ x ∧ x < b

theorem mem_between {l : List α} {a b x : α} : x ∈ between l a b ↔ x ∈ l ∧ a ≤ x ∧ x < b := by
  simp [between]

theorem between_sorted {l : List α} (hl : l.SortedLT) (a b : α) : (between l a b).SortedLT :=
  (hl.pairwise.filter _).sortedLT

/-- Two cuts that meet are one. -/
theorem between_append {l : List α} (hl : l.SortedLT) {a b c : α} (hab : a ≤ b) (hbc : b ≤ c) :
    between l a b ++ between l b c = between l a c := by
  apply List.SortedLT.eq_of_mem_iff
  · apply List.Pairwise.sortedLT
    rw [List.pairwise_append]
    refine ⟨(between_sorted hl a b).pairwise, (between_sorted hl b c).pairwise, ?_⟩
    intro x hx y hy
    exact (mem_between.1 hx).2.2.trans_le (mem_between.1 hy).2.1
  · exact between_sorted hl a c
  · intro x
    rw [List.mem_append, mem_between, mem_between, mem_between]
    constructor
    · rintro (⟨hx, ha, hb⟩ | ⟨hx, hb, hc⟩)
      · exact ⟨hx, ha, hb.trans_le hbc⟩
      · exact ⟨hx, hab.trans hb, hc⟩
    · rintro ⟨hx, ha, hc⟩
      rcases lt_or_ge x b with hb | hb
      · exact .inl ⟨hx, ha, hb⟩
      · exact .inr ⟨hx, hb, hc⟩

/-- Any number of cuts that meet are one. -/
theorem flatMap_between {l : List α} (hl : l.SortedLT) {f : ℕ → α} (hf : Monotone f) (m n : ℕ) :
    (List.range' m n).flatMap (fun k => between l (f k) (f (k + 1))) = between l (f m) (f (m + n)) := by
  induction n with
  | zero =>
    symm
    simp [between]
  | succ n ih =>
    rw [List.range'_concat, List.flatMap_append, ih]
    simp only [Nat.one_mul, List.flatMap_singleton]
    exact between_append hl (hf (by omega)) (hf (by omega))

theorem between_eq_self {l : List α} {a b : α} (h : ∀ x ∈ l, a ≤ x ∧ x < b) : between l a b = l := by
  unfold between
  rw [List.filter_eq_self]
  intro x hx
  exact decide_eq_true (h x hx)

end Cuts

/-! ## Type bitmaps -/

/-- Bit `i` of an octet, the most significant first. -/
def bit_set (x : UInt8) (i : ℕ) : Bool := x &&& (0x80 >>> UInt8.ofNat i) ≠ 0

/-- The octet of `types` that stands for the eight types from `start` on. -/
def type_octet (rrlist : List ℕ) (start : ℕ) : UInt8 :=
  UInt8.ofNat ((between rrlist start (start + 8)).map fun x => 2 ^ (7 + start - x)).sum

/-- The bitmap of one window. -/
def window_octets (rrlist : List ℕ) (wb : ℕ) : Bytes :=
  let last := rrlist.getLastD 0
  let bytes_count := if last = 0 then 1 else (last - 256 * wb) / 8 + 1
  let bytes_count := if bytes_count > 32 then 32 else bytes_count
  (List.range bytes_count).map fun tmp => type_octet rrlist (256 * wb + 8 * tmp)

/-- One window: nothing if no type of the list falls into it. -/
def window_block (lst : List ℕ) (wb : ℕ) : Bytes :=
  let rrlist := between lst (256 * wb) (256 * (wb + 1))
  if rrlist = [] then []
  else UInt8.ofNat wb :: UInt8.ofNat (window_octets rrlist wb).length :: window_octets rrlist wb

/-- `RRlist2bitmap`. A type number is not negative, so `abs` leaves it as it is. -/
def RRlist2bitmap (lst : List ℕ) : Option Bytes :=
  let lst := lst.toFinset.sort.filter fun x => x ≤ 65535
  match lst.head?, lst.getLast? with
  | some first, some last =>
    let max_window_blocks := (last + 255) / 256
    let min_window_blocks := first / 256
    let max_window_blocks :=
      if min_window_blocks = max_window_blocks then max_window_blocks + 1 else max_window_blocks
    some ((List.range' min_window_blocks (max_window_blocks + 1 - min_window_blocks)).flatMap
      (window_block lst))
  | _, _ => none

/-- The types whose bits an octet has set. -/
def octet_types (start : ℕ) (x : UInt8) : List ℕ :=
  ((List.range 8).filter (bit_set x)).map fun i => start + i

/-- The types of one window, octet after octet. -/
def window_types (offset : ℕ) (bitmap : Bytes) : List ℕ :=
  bitmap.zipIdx.flatMap fun p => octet_types (offset + 8 * p.2) p.1

/-- `bitmap2RRlist`. -/
def bitmap2RRlist : Bytes → Option (List ℕ)
  | [] => some []
  | [_] => none
  | window_block :: bitmap_len :: rest =>
    if bitmap_len = 0 ∨ 32 < bitmap_len then none
    else
      (bitmap2RRlist (rest.drop bitmap_len.toNat)).map fun RRlist =>
        window_types (256 * window_block.toNat) (rest.take bitmap_len.toNat) ++ RRlist
termination_by bitmap => bitmap.length
decreasing_by simp only [List.length_drop, List.length_cons]; omega

/-- The types `decode_type_bitmap` makes of a bitmap, as numbers. -/
def decoded_types (raw : Bytes) : Option (List ℕ) := (decode_type_bitmap raw).map (·.map UInt16.toNat)

/-! ### One octet -/

/-- Bits of an octet that is the sum of their powers. -/
theorem bit_set_sum (p : ℕ → Bool) {i : ℕ} (hi : i < 8) :
    bit_set (UInt8.ofNat (((List.range 8).filter p).map fun i => 2 ^ (7 - i)).sum) i = p i := by
  have hall : ∀ b0 b1 b2 b3 b4 b5 b6 b7 : Bool, ∀ i < 8,
      bit_set (UInt8.ofNat (((List.range 8).filter
        (fun i => [b0, b1, b2, b3, b4, b5, b6, b7].getD i false)).map fun i => 2 ^ (7 - i)).sum) i =
          [b0, b1, b2, b3, b4, b5, b6, b7].getD i false := by
    decide +kernel
  have hbits := hall (p 0) (p 1) (p 2) (p 3) (p 4) (p 5) (p 6) (p 7)
  have hp : ∀ i < 8, [p 0, p 1, p 2, p 3, p 4, p 5, p 6, p 7].getD i false = p i := by
    intro i hi
    interval_cases i <;> rfl
  have hfilter : (List.range 8).filter
      (fun i => [p 0, p 1, p 2, p 3, p 4, p 5, p 6, p 7].getD i false) = (List.range 8).filter p :=
    List.filter_congr fun i hi => hp i (List.mem_range.1 hi)
  have h := hbits i hi
  rw [hfilter, hp i hi] at h
  exact h

/-- The types of one octet of a window, in order. -/
theorem between_eight {l : List ℕ} (hl : l.SortedLT) (start : ℕ) : between l start (start + 8) =
    ((List.range 8).filter fun i => start + i ∈ l).map fun i => start + i := by
  apply (between_sorted hl _ _).eq_of_mem_iff
  · apply List.Pairwise.sortedLT
    rw [List.pairwise_map]
    exact (List.pairwise_lt_range.filter _).imp (by omega)
  · intro x
    simp only [mem_between, List.mem_map, List.mem_filter, List.mem_range, decide_eq_true_eq]
    constructor
    · rintro ⟨hx, hlow, hhigh⟩
      have hsum : start + (x - start) = x := by omega
      exact ⟨x - start, ⟨by omega, by rwa [hsum]⟩, hsum⟩
    · rintro ⟨i, ⟨hi, hx⟩, rfl⟩
      exact ⟨hx, by omega, by omega⟩

/-- **An octet stands for its types.** -/
theorem octet_types_type_octet {l : List ℕ} (hl : l.SortedLT) (start : ℕ) :
    octet_types start (type_octet l start) = between l start (start + 8) := by
  have hsum : ((List.range 8).filter fun i => start + i ∈ l).map (fun i => 2 ^ (7 + start - (start + i)))
      = ((List.range 8).filter fun i => start + i ∈ l).map fun i => 2 ^ (7 - i) := by
    apply List.map_congr_left
    intro i _
    rw [show 7 + start - (start + i) = 7 - i by omega]
  unfold type_octet octet_types
  rw [between_eight hl, List.map_map]
  show List.map _ (List.filter (bit_set (UInt8.ofNat (List.map
    (fun i => 2 ^ (7 + start - (start + i))) _).sum)) _) = _
  rw [hsum]
  congr 1
  exact List.filter_congr fun i hi => bit_set_sum _ (List.mem_range.1 hi)

/-! ### One window -/

/-- A list by its indices. -/
theorem flatMap_zipIdx_map {α β : Type*} (g : ℕ → α) (f : α × ℕ → List β) (n : ℕ) :
    ((List.range n).map g).zipIdx.flatMap f = (List.range n).flatMap fun k => f (g k, k) := by
  induction n with
  | zero => rfl
  | succ n ih =>
    rw [List.range_succ, List.map_append, List.zipIdx_append, List.flatMap_append, ih]
    simp

/-- A list of types of one window, with the last of them. -/
structure Window (rrlist : List ℕ) (wb last : ℕ) : Prop where
  sorted : rrlist.SortedLT
  inside : ∀ x ∈ rrlist, 256 * wb ≤ x ∧ x ≤ last
  last_mem : last ∈ rrlist
  last_lt : last < 256 * (wb + 1)

namespace Window

variable {rrlist : List ℕ} {wb last : ℕ}

theorem of_between {l : List ℕ} (hl : l.SortedLT) {wb : ℕ}
    (hne : between l (256 * wb) (256 * (wb + 1)) ≠ []) :
    ∃ last, Window (between l (256 * wb) (256 * (wb + 1))) wb last := by
  have hsorted := between_sorted hl (256 * wb) (256 * (wb + 1))
  have hmem := List.getLast_mem hne
  refine ⟨List.getLast _ hne, hsorted, ?_, hmem, (mem_between.1 hmem).2.2⟩
  intro x hx
  refine ⟨(mem_between.1 hx).2.1, ?_⟩
  exact (hsorted.pairwise.imp le_of_lt).rel_getLast hx

/-- Its last type is the greatest. -/
theorem getLastD_eq (h : Window rrlist wb last) : rrlist.getLastD 0 = last := by
  have hne := List.ne_nil_of_mem h.last_mem
  have hmem := List.getLast_mem hne
  have hle := (h.sorted.pairwise.imp le_of_lt).rel_getLast h.last_mem
  rw [List.getLastD_eq_getLast?, List.getLast?_eq_some_getLast hne, Option.getD_some]
  exact le_antisymm (h.inside _ hmem).2 hle

/-- How many octets the bitmap has: up to the one of the last type. -/
theorem window_octets_eq (h : Window rrlist wb last) : window_octets rrlist wb =
    (List.range ((last - 256 * wb) / 8 + 1)).map fun tmp => type_octet rrlist (256 * wb + 8 * tmp) := by
  have hlast := h.last_lt
  have hcount : (if last = 0 then 1 else (last - 256 * wb) / 8 + 1) = (last - 256 * wb) / 8 + 1 := by
    split
    · rename_i hzero
      simp [hzero]
    · rfl
  unfold window_octets
  dsimp only
  rw [h.getLastD_eq, hcount, if_neg (by omega)]

/-- The octets of a window list the window's types again. -/
theorem window_types_eq (h : Window rrlist wb last) :
    window_types (256 * wb) (window_octets rrlist wb) = rrlist := by
  have hlow := (h.inside last h.last_mem).1
  have hcuts := flatMap_between h.sorted (f := fun k => 256 * wb + 8 * k)
    (fun a b hab => by dsimp only; omega) 0 ((last - 256 * wb) / 8 + 1)
  rw [← List.range_eq_range', between_eq_self (b := 256 * wb + 8 * (0 + ((last - 256 * wb) / 8 + 1)))]
    at hcuts
  · refine Eq.trans ?_ hcuts
    unfold window_types
    rw [h.window_octets_eq, flatMap_zipIdx_map]
    apply List.flatMap_congr
    intro k _
    exact octet_types_type_octet h.sorted _
  · intro x hx
    have hbounds := h.inside x hx
    omega

/-- The last octet has the bit of the last type. -/
theorem window_octets_last (h : Window rrlist wb last) :
    ∃ x, (window_octets rrlist wb).getLast? = some x ∧ x ≠ 0 := by
  have hlow := (h.inside last h.last_mem).1
  have htypes := octet_types_type_octet h.sorted (256 * wb + 8 * ((last - 256 * wb) / 8))
  refine ⟨type_octet rrlist (256 * wb + 8 * ((last - 256 * wb) / 8)), ?_, ?_⟩
  · rw [h.window_octets_eq, List.range_succ, List.map_append]
    simp
  · intro hzero
    have hmem : last ∈ between rrlist (256 * wb + 8 * ((last - 256 * wb) / 8))
        (256 * wb + 8 * ((last - 256 * wb) / 8) + 8) :=
      mem_between.2 ⟨h.last_mem, by omega, by omega⟩
    -- no bit of a zero octet is set
    have hnone : (List.range 8).filter (bit_set 0) = [] := by decide
    rw [← htypes, hzero, octet_types, hnone] at hmem
    exact List.not_mem_nil hmem

theorem length_window_octets (h : Window rrlist wb last) :
    1 ≤ (window_octets rrlist wb).length ∧ (window_octets rrlist wb).length ≤ 32 := by
  have hlast := h.last_lt
  rw [h.window_octets_eq, List.length_map, List.length_range]
  omega

end Window

/-! ### Window after window -/

/-- What the two octets in front of a bitmap are read as. -/
theorem block_head {wb : ℕ} (hwb : wb < 256) {bits : Bytes} (hlow : 1 ≤ bits.length)
    (hhigh : bits.length ≤ 32) :
    (UInt8.ofNat wb).toNat = wb ∧ (UInt8.ofNat bits.length).toNat = bits.length ∧
      ¬(UInt8.ofNat bits.length = 0 ∨ 32 < UInt8.ofNat bits.length) := by
  have hlen : (UInt8.ofNat bits.length).toNat = bits.length := by
    rw [UInt8.toNat_ofNat']
    omega
  refine ⟨?_, hlen, ?_⟩
  · rw [UInt8.toNat_ofNat']
    omega
  · rw [← UInt8.toNat_inj, UInt8.lt_iff_toNat_lt, hlen]
    show ¬(bits.length = 0 ∨ 32 < bits.length)
    omega

theorem bitmap2RRlist_cons {wb : ℕ} (hwb : wb < 256) {bits : Bytes} (hlow : 1 ≤ bits.length)
    (hhigh : bits.length ≤ 32) (rest : Bytes) :
    bitmap2RRlist (UInt8.ofNat wb :: UInt8.ofNat bits.length :: (bits ++ rest)) =
      (bitmap2RRlist rest).map fun RRlist => window_types (256 * wb) bits ++ RRlist := by
  obtain ⟨hnum, hlen, hvalid⟩ := block_head hwb hlow hhigh
  rw [bitmap2RRlist, if_neg hvalid, hlen, hnum, List.take_left, List.drop_left]

theorem getD_append_add (before raw : Bytes) (i : ℕ) :
    (before ++ raw).getD (before.length + i) 0 = raw.getD i 0 := by
  simp [List.getD_eq_getElem?_getD, List.getElem?_append_right]

theorem slice_checked_append (before raw : Bytes) (a b : ℕ) :
    slice_checked (before ++ raw) (before.length + a) (before.length + b) = slice_checked raw a b := by
  simp [slice_checked, slice, List.take_length_add_append, List.drop_length_add_append]

/-- The loop sees nothing of what is in front of where it stands. -/
theorem decode_type_bitmap_from_append (before raw : Bytes) (i : ℕ) :
    decode_type_bitmap_from (before ++ raw) (before.length + i) = decode_type_bitmap_from raw i := by
  have hroom : ∀ i, before.length + i + 2 ≤ (before ++ raw).length ↔ i + 2 ≤ raw.length := by
    intro i
    rw [List.length_append]
    omega
  have hlen : ∀ i, (before ++ raw).getD (before.length + i + 1) 0 = raw.getD (i + 1) 0 :=
    fun i => getD_append_add before raw (i + 1)
  fun_induction decode_type_bitmap_from raw i with
  | case1 i hi len hbad =>
    rw [decode_type_bitmap_from, dif_pos ((hroom i).2 hi), hlen]
    exact if_pos hbad
  | case2 i hi window len hvalid ih =>
    have hbits := slice_checked_append before raw (i + 2) (i + 2 + len)
    simp only [← Nat.add_assoc] at hbits ih
    rw [decode_type_bitmap_from, dif_pos ((hroom i).2 hi), hlen, getD_append_add]
    dsimp only
    rw [if_neg hvalid, hbits, ih]
  | case3 hi =>
    rw [decode_type_bitmap_from, dif_neg (by rwa [hroom]), if_pos (by simp)]
  | case4 i hi hend =>
    rw [decode_type_bitmap_from, dif_neg (by rwa [hroom]), if_neg (by simpa using hend)]

/-- A filter and a map in one pass. -/
theorem filterMap_ite_some {α β : Type*} (p : α → Bool) (g : α → β) (l : List α) :
    (l.filterMap fun i => if p i then some (g i) else none) = (l.filter p).map g := by
  induction l with
  | nil => rfl
  | cons a l ih => cases h : p a <;> simp [h, ih]

/-- The window number and the type within the window share no bit. -/
theorem bitmap_types_toNat {wb : ℕ} (hwb : wb < 256) {k : ℕ} (hk : k < 32) (b : UInt8) :
    (bitmap_types (UInt8.ofNat wb).toUInt16 k b).map UInt16.toNat = octet_types (256 * wb + 8 * k) b := by
  have hbits : bitmap_types (UInt8.ofNat wb).toUInt16 k b =
      ((List.range 8).filter (bit_set b)).map fun bit =>
        (UInt8.ofNat wb).toUInt16 <<< 8 ||| UInt16.ofNat (k * 8 + bit) := by
    rw [← filterMap_ite_some, bitmap_types]
    simp [bit_set]
  rw [hbits, octet_types, List.map_map]
  apply List.map_congr_left
  intro bit hbit
  have hbit8 : bit < 8 := List.mem_range.1 (List.mem_filter.1 hbit).1
  have hwindow : ((UInt8.ofNat wb).toUInt16 <<< 8).toNat = wb <<< 8 := by
    rw [UInt16.toNat_shiftLeft, UInt8.toNat_toUInt16, UInt8.toNat_ofNat']
    show (wb % 2 ^ 8) <<< 8 % 2 ^ 16 = wb <<< 8
    rw [Nat.shiftLeft_eq]
    omega
  have htype : (UInt16.ofNat (k * 8 + bit)).toNat = k * 8 + bit := by
    rw [UInt16.toNat_ofNat']
    omega
  rw [Function.comp_apply, UInt16.toNat_or, hwindow, htype, ← Nat.shiftLeft_add_eq_or_of_lt (by omega),
    Nat.shiftLeft_eq]
  omega

theorem decoded_types_nil : decoded_types [] = some [] := by
  simp [decoded_types, decode_type_bitmap, decode_type_bitmap_from]

/-- The decoder takes one window off the front and goes on behind it. -/
theorem decoded_types_cons {wb : ℕ} (hwb : wb < 256) {bits : Bytes} (hlow : 1 ≤ bits.length)
    (hhigh : bits.length ≤ 32) (rest : Bytes) :
    decoded_types (UInt8.ofNat wb :: UInt8.ofNat bits.length :: (bits ++ rest)) =
      (decoded_types rest).map fun out => window_types (256 * wb) bits ++ out := by
  obtain ⟨-, hlen, -⟩ := block_head hwb hlow hhigh
  -- The two decoders agree on one block's bitmap.
  have htypes : (bits.zipIdx.flatMap fun b => bitmap_types (UInt8.ofNat wb).toUInt16 b.2 b.1).map
      UInt16.toNat = window_types (256 * wb) bits := by
    rw [List.map_flatMap]
    apply List.flatMap_congr
    intro p hp
    obtain ⟨hindex, -⟩ := List.mem_zipIdx' hp
    exact bitmap_types_toNat hwb (hindex.trans_le hhigh) p.1
  have hbits : slice_checked (UInt8.ofNat wb :: UInt8.ofNat bits.length :: (bits ++ rest)) 2
      (2 + bits.length) = some bits := by
    refine (slice_checked_append [UInt8.ofNat wb, UInt8.ofNat bits.length] (bits ++ rest) 0 _).trans ?_
    simp [slice_checked, slice]
  -- behind the block both go on with the same octets
  have hafter : decode_type_bitmap_from (UInt8.ofNat wb :: UInt8.ofNat bits.length :: (bits ++ rest))
      (2 + bits.length) = decode_type_bitmap_from rest 0 := by
    have hskip := decode_type_bitmap_from_append (UInt8.ofNat wb :: UInt8.ofNat bits.length :: bits) rest 0
    rw [show 2 + bits.length = bits.length + 1 + 1 from by omega]
    exact hskip
  unfold decoded_types decode_type_bitmap
  rw [decode_type_bitmap_from, dif_pos (by simp)]
  simp only [Nat.zero_add, List.getD_cons_zero, List.getD_cons_succ, hlen]
  rw [if_neg (by omega), hbits, hafter]
  cases decode_type_bitmap_from rest 0 with
  | none => rfl
  | some types => simp [htypes]

/-- A block on the wire: window number, length and bitmap. -/
def block_octets (b : ℕ × Bytes) : Bytes := UInt8.ofNat b.1 :: UInt8.ofNat b.2.length :: b.2

/-- RFC 4034 §4.1.2: one to 32 octets, the last of which is not zero. -/
structure Block (b : ℕ × Bytes) : Prop where
  window : b.1 < 256
  length : 1 ≤ b.2.length ∧ b.2.length ≤ 32
  trimmed : ∃ x, b.2.getLast? = some x ∧ x ≠ 0

/-- The blocks of the windows that have a type. -/
def blocks (l : List ℕ) (ws : List ℕ) : List (ℕ × Bytes) :=
  (ws.filter fun wb => between l (256 * wb) (256 * (wb + 1)) ≠ []).map fun wb =>
    (wb, window_octets (between l (256 * wb) (256 * (wb + 1))) wb)

variable {l : List ℕ}

theorem flatMap_window_block (l ws : List ℕ) :
    ws.flatMap (window_block l) = (blocks l ws).flatMap block_octets := by
  induction ws with
  | nil => rfl
  | cons wb ws ih =>
    rw [List.flatMap_cons, ih]
    by_cases hempty : between l (256 * wb) (256 * (wb + 1)) = []
    · simp [window_block, blocks, hempty]
    · simp [window_block, blocks, block_octets, hempty]

theorem block_of_mem (hl : l.SortedLT) (hsmall : ∀ x ∈ l, x < 2 ^ 16) {ws : List ℕ} {b : ℕ × Bytes}
    (hb : b ∈ blocks l ws) : Block b := by
  obtain ⟨wb, hwb, rfl⟩ := List.mem_map.1 hb
  have hne := of_decide_eq_true (List.mem_filter.1 hwb).2
  obtain ⟨last, hwindow⟩ := Window.of_between hl hne
  refine ⟨?_, hwindow.length_window_octets, hwindow.window_octets_last⟩
  have hlast := hsmall last (mem_between.1 hwindow.last_mem).1
  have hlow := (hwindow.inside last hwindow.last_mem).1
  show wb < 256
  omega

/-- A decoder that takes one block after the other finds the types of all windows. -/
theorem decode_blocks {dec : Bytes → Option (List ℕ)} (hnil : dec [] = some [])
    (hcons : ∀ (wb : ℕ) (bits rest : Bytes), wb < 256 → 1 ≤ bits.length → bits.length ≤ 32 →
      dec (UInt8.ofNat wb :: UInt8.ofNat bits.length :: (bits ++ rest)) =
        (dec rest).map fun out => window_types (256 * wb) bits ++ out)
    (hl : l.SortedLT) (hsmall : ∀ x ∈ l, x < 2 ^ 16) (ws : List ℕ) :
    dec (ws.flatMap (window_block l)) =
      some (ws.flatMap fun wb => between l (256 * wb) (256 * (wb + 1))) := by
  induction ws with
  | nil => exact hnil
  | cons wb ws ih =>
    rw [List.flatMap_cons, List.flatMap_cons]
    by_cases hempty : between l (256 * wb) (256 * (wb + 1)) = []
    · rw [window_block]
      simp [hempty, ih]
    · obtain ⟨last, hwindow⟩ := Window.of_between hl hempty
      have hmem : (wb, window_octets (between l (256 * wb) (256 * (wb + 1))) wb) ∈ blocks l [wb] := by
        simp [blocks, hempty]
      have hblock := block_of_mem hl hsmall hmem
      rw [window_block, if_neg hempty, List.cons_append, List.cons_append,
        hcons wb _ _ hblock.window hblock.length.1 hblock.length.2, ih, hwindow.window_types_eq]
      rfl

theorem blocks_ascending (l : List ℕ) (m n : ℕ) :
    (blocks l (List.range' m n)).Pairwise fun a b => a.1 < b.1 := by
  unfold blocks
  rw [List.pairwise_map]
  exact List.Pairwise.filter _ List.pairwise_lt_range'

/-- The windows `RRlist2bitmap` goes through hold every type of the list. -/
theorem RRlist2bitmap_eq {lst : List ℕ} (hne : lst ≠ []) (hsmall : ∀ x ∈ lst, x < 2 ^ 16) :
    ∃ m n, RRlist2bitmap lst = some ((List.range' m n).flatMap (window_block lst.toFinset.sort)) ∧
      ∀ x ∈ lst, 256 * m ≤ x ∧ x < 256 * (m + n) := by
  have hfilter : lst.toFinset.sort.filter (fun x => x ≤ 65535) = lst.toFinset.sort := by
    rw [List.filter_eq_self]
    intro x hx
    have hx16 := hsmall x (by simpa using hx)
    exact decide_eq_true (by omega)
  have hsort : lst.toFinset.sort ≠ [] := by
    intro hnil
    have hempty := Finset.sort_toFinset lst.toFinset (· ≤ ·)
    rw [hnil] at hempty
    exact hne (List.toFinset_eq_empty_iff lst |>.1 hempty.symm)
  have hsorted := Finset.pairwise_sort lst.toFinset (· ≤ ·)
  unfold RRlist2bitmap
  rw [hfilter]
  dsimp only
  rw [List.head?_eq_some_head hsort, List.getLast?_eq_some_getLast hsort]
  refine ⟨_, _, rfl, ?_⟩
  intro x hx
  have hmem : x ∈ lst.toFinset.sort := by simpa using hx
  have hfirst := hsorted.rel_head hmem
  have hlast := hsorted.rel_getLast hmem
  split <;> omega

/-- **The types of a bitmap are the set it was made of**, for either decoder, and its blocks are those
of RFC 4034. -/
theorem type_bitmap_round_trip {lst : List ℕ} (hne : lst ≠ []) (hsmall : ∀ x ∈ lst, x < 2 ^ 16) :
    ∃ bitmap, RRlist2bitmap lst = some bitmap ∧ bitmap2RRlist bitmap = some lst.toFinset.sort ∧
      decoded_types bitmap = some lst.toFinset.sort ∧
      ∃ bs : List (ℕ × Bytes), bitmap = bs.flatMap block_octets ∧
        (bs.Pairwise fun a b => a.1 < b.1) ∧ ∀ b ∈ bs, Block b := by
  obtain ⟨m, n, hbitmap, hbounds⟩ := RRlist2bitmap_eq hne hsmall
  have hl : lst.toFinset.sort.SortedLT := Finset.sortedLT_sort _
  have hsort : ∀ x ∈ lst.toFinset.sort, x < 2 ^ 16 := by simpa using hsmall
  have hall := flatMap_between hl (f := fun k => 256 * k) (fun a b hab => by dsimp only; omega) m n
  rw [between_eq_self (by simpa using hbounds)] at hall
  refine ⟨_, hbitmap, ?_, ?_, _, flatMap_window_block _ _, blocks_ascending _ m n, ?_⟩
  · rw [decode_blocks bitmap2RRlist.eq_1 (fun wb bits rest h h1 h2 => bitmap2RRlist_cons h h1 h2 rest)
      hl hsort, hall]
  · rw [decode_blocks decoded_types_nil (fun wb bits rest h h1 h2 => decoded_types_cons h h1 h2 rest)
      hl hsort, hall]
  · intro b hb
    exact block_of_mem hl hsort hb

/-- A and a type of the fifth window, given in the other order. -/
theorem type_bitmap_two_windows :
    ∃ bitmap, RRlist2bitmap [1234, 1, 1234] = some bitmap ∧
      bitmap2RRlist bitmap = some [1234, 1, 1234].toFinset.sort ∧
      decoded_types bitmap = some [1234, 1, 1234].toFinset.sort ∧
      ∃ bs : List (ℕ × Bytes), bitmap = bs.flatMap block_octets ∧
        (bs.Pairwise fun a b => a.1 < b.1) ∧ ∀ b ∈ bs, Block b :=
  type_bitmap_round_trip (by decide) (by decide)

example : window_block [1, 1234] 4 = 4 :: 27 :: (List.replicate 26 0 ++ [0x20]) := by decide

/-! ## Time signed -/

namespace TimeSigned

/-- `struct.unpack` of one big-endian number of `n` octets. -/
def unpack (n : ℕ) (b : Bytes) : Option ℕ := if b.length = n then some (Endian.big b) else none

/-- `TimeSignedField._convert_seconds`: the halves are added as they are. -/
def convert_seconds (packed_seconds : Bytes) : Option ℕ := do
  let seconds ← unpack 2 (packed_seconds.take 2)
  let low ← unpack 4 (packed_seconds.drop 2)
  return seconds + low

/-- `TimeSignedField.i2m`. -/
def i2m (seconds : Option ℕ) : Bytes :=
  let seconds := seconds.getD 0
  let tmp_short := (seconds >>> 32) &&& 0xFFFF
  let tmp_int := seconds &&& 0xFFFFFFFF
  octets_of 2 tmp_short ++ octets_of 4 tmp_int

/-- `TimeSignedField.m2i`. -/
def m2i (packed_seconds : Option Bytes) : Option ℕ := packed_seconds.bind convert_seconds

/-- What six octets are read as. -/
theorem m2i_eq {b : Bytes} (hb : b.length = 6) :
    m2i (some b) = some (Endian.big b / 2 ^ 32 + Endian.big b % 2 ^ 32) := by
  have hhigh := Endian.big_take b 2
  have hlow := Endian.big_drop b 2
  rw [hb] at hhigh hlow
  simp [m2i, convert_seconds, unpack, hb, hhigh, hlow]

theorem i2m_eq {s : ℕ} (hs : s < 2 ^ 48) :
    (i2m (some s)).length = 6 ∧ Endian.big (i2m (some s)) = s := by
  constructor
  · simp [i2m, Packet.length_octets_of]
  · have hshort : (s >>> 32) &&& 0xFFFF = s / 2 ^ 32 := by
      rw [Nat.shiftRight_eq_div_pow, Nat.and_two_pow_sub_one_eq_mod _ 16]
      omega
    have hint : s &&& 0xFFFFFFFF = s % 2 ^ 32 := Nat.and_two_pow_sub_one_eq_mod s 32
    show Endian.big (octets_of 2 ((s >>> 32) &&& 0xFFFF) ++ octets_of 4 (s &&& 0xFFFFFFFF)) = s
    rw [Endian.big_append, Packet.big_octets_of, Packet.big_octets_of, Packet.length_octets_of, hshort, hint]
    omega

/-- **A time is read back, and six octets as the number they spell, exactly where the upper sixteen bits
are zero.** -/
theorem m2i_iff {s : ℕ} (hs : s < 2 ^ 48) {b : Bytes} (hb : b.length = 6) :
    (m2i (some (i2m (some s))) = some s ↔ s < 2 ^ 32) ∧
      (m2i (some b) = some (Endian.big b) ↔ b.take 2 = [0, 0]) := by
  obtain ⟨hlen, hbig⟩ := i2m_eq hs
  constructor
  · rw [m2i_eq hlen, hbig, Option.some.injEq]
    omega
  · have hhigh := Endian.big_take b 2
    rw [hb] at hhigh
    rw [m2i_eq hb, Option.some.injEq]
    constructor
    · intro heq
      apply Endian.big_inj
      · simp [hb]
      · rw [hhigh, show Endian.big [0, 0] = 0 by rfl]
        omega
    · intro hzero
      rw [hzero, show Endian.big [0, 0] = 0 by rfl] at hhigh
      omega

/-- A second past 2^32, and its octets. -/
theorem m2i_carried : (m2i (some (i2m (some (2 ^ 32)))) = some (2 ^ 32) ↔ 2 ^ 32 < 2 ^ 32) ∧
    (m2i (some [0, 1, 0, 0, 0, 0]) = some (Endian.big [0, 1, 0, 0, 0, 0]) ↔
      [(0 : UInt8), 1, 0, 0, 0, 0].take 2 = [0, 0]) :=
  m2i_iff (by decide) rfl

/-- 2^32 seconds are written as 1 and 0, and read as 1. -/
theorem m2i_lost : i2m (some (2 ^ 32)) = [0, 1, 0, 0, 0, 0] ∧
    m2i (some [0, 1, 0, 0, 0, 0]) = some 1 ∧ Endian.big [0, 1, 0, 0, 0, 0] = 2 ^ 32 := by
  decide

end TimeSigned

end Wiry.Dns
