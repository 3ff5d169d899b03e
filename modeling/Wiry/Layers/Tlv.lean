/-
`crates/wiry-core/src/layers/tlv.rs`: one bounded walk over a tag/length/value
region, parameterised by the shape the protocol gives its tag and length octets.

Offsets are a machine word: an addition that does not fit one stops the program,
which is `none` here. A value is where it lies in the region.
-/
import Wiry.Packet.Field

set_option autoImplicit false

namespace Wiry.Tlv

open Packet Bits

structure TlvFmt where
  tag_bits : ℕ
  /-- Bits between tag and length that belong to neither (SCTP chunk flags). -/
  mid_bits : ℕ
  len_bits : ℕ
  /-- Units the length counts, in octets. -/
  len_scale : ℕ
  /-- Whether the length already counts the tag and length octets. -/
  len_covers_header : Bool
  /-- Item sizes are rounded up to this; 1 means no padding. -/
  align : ℕ
  /-- Tag that closes the region. -/
  end_tag : Option ℕ
deriving DecidableEq, Repr

/-- `usize::div_ceil`. -/
def div_ceil (n d : ℕ) : ℕ := (n + d - 1) / d

namespace TlvFmt

/-- `new`, its two widths. -/
def new (tag_bits len_bits : ℕ) : TlvFmt where
  tag_bits := tag_bits
  mid_bits := 0
  len_bits := len_bits
  len_scale := 1
  len_covers_header := false
  align := 1
  end_tag := none

def covering_header (f : TlvFmt) : TlvFmt := { f with len_covers_header := true }

def scaled (f : TlvFmt) (n : ℕ) : TlvFmt := { f with len_scale := n }

def with_mid (f : TlvFmt) (bits : ℕ) : TlvFmt := { f with mid_bits := bits }

def aligned (f : TlvFmt) (n : ℕ) : TlvFmt := { f with align := n }

def ending_at (f : TlvFmt) (tag : ℕ) : TlvFmt := { f with end_tag := some tag }

/-- `header_len`. -/
def header_len (f : TlvFmt) : ℕ := div_ceil (f.tag_bits + f.mid_bits + f.len_bits) 8

end TlvFmt

/-- `Raw`: one decoded item, its value `&data[start..stop]`. -/
structure Raw where
  tag : ℕ
  mid : ℕ
  start : ℕ
  stop : ℕ
deriving DecidableEq, Repr

/-- The octets of a value. -/
def Raw.value (r : Raw) (data : Bytes) : Bytes := slice data r.start r.stop

/-- A number that fits a machine word. -/
def usize (n : ℕ) : Option ℕ := if n < 2 ^ 64 then some n else none

/-- The octets an item takes before padding. -/
def total (f : TlvFmt) (len : ℕ) : Option ℕ :=
  -- `saturating_mul`
  let claimed := min (len * f.len_scale) (2 ^ 64 - 1)
  if f.len_covers_header then some (max claimed f.header_len) else usize (f.header_len + claimed)

/-- The loop of `walk` from `i` on, with `guard` turns left. -/
def walk_loop (data : Bytes) (f : TlvFmt) : ℕ → ℕ → Option (List Raw)
  | 0, _ => some []
  | guard + 1, i =>
    (usize (i + f.header_len)).bind fun body =>
      if data.length < body then some []
      else
        let w := slice data i body
        let tag := read_bits w 0 f.tag_bits % 2 ^ 32
        let mid := read_bits w f.tag_bits f.mid_bits
        let len := read_bits w (f.tag_bits + f.mid_bits) f.len_bits
        (total f len).bind fun total =>
        (usize (div_ceil total f.align * f.align)).bind fun padded =>
        (usize (i + total)).bind fun stop =>
          if data.length < stop then some []
          else if some tag = f.end_tag then some [⟨tag, mid, body, stop⟩]
          else
            (usize (i + max padded f.header_len)).bind fun next =>
              (walk_loop data f guard next).map fun out => ⟨tag, mid, body, stop⟩ :: out

/-- `walk`: at most 512 items. -/
def walk (data : Bytes) (f : TlvFmt) : Option (List Raw) := walk_loop data f 512 0

/-- Formats whose header is whole octets, of parts no wider than `read_bits` reads, and whose
alignment leaves a machine word room. -/
structure TlvFmt.Sound (f : TlvFmt) : Prop where
  whole : (f.tag_bits + f.mid_bits + f.len_bits) % 8 = 0
  some_octet : 0 < f.tag_bits + f.mid_bits + f.len_bits
  tag_le : f.tag_bits ≤ 64
  mid_le : f.mid_bits ≤ 64
  len_le : f.len_bits ≤ 64
  scale_pos : 1 ≤ f.len_scale
  align_pos : 1 ≤ f.align
  align_le : f.header_len + f.align ≤ 2 ^ 63

/-- No length the format can spell overflows a machine word. -/
def TlvFmt.Small (f : TlvFmt) : Prop :=
  f.header_len + (2 ^ f.len_bits - 1) * f.len_scale + f.align ≤ 2 ^ 63

instance (f : TlvFmt) : Decidable f.Small := inferInstanceAs (Decidable (_ ≤ _))

namespace TlvFmt.Sound

variable {f : TlvFmt} (hf : f.Sound)

include hf

theorem header_eq : 8 * f.header_len = f.tag_bits + f.mid_bits + f.len_bits := by
  have hwhole := hf.whole
  unfold TlvFmt.header_len div_ceil
  omega

theorem header_pos : 0 < f.header_len := by
  have heq := hf.header_eq
  have hpos := hf.some_octet
  omega

end TlvFmt.Sound

/-- The formats of the layers: 802.11 elements, RADIUS attributes, DHCPv6 options and TLS
extensions, LLDP, NDP, CDP, and the chunks and parameters of SCTP. -/
def FORMATS : List TlvFmt :=
  [TlvFmt.new 8 8, (TlvFmt.new 8 8).covering_header, TlvFmt.new 16 16, (TlvFmt.new 7 9).ending_at 0,
    (TlvFmt.new 8 8).covering_header.scaled 8, (TlvFmt.new 16 16).covering_header,
    (((TlvFmt.new 8 16).with_mid 8).covering_header).aligned 4,
    ((TlvFmt.new 16 16).covering_header).aligned 4]

theorem formats_sound : ∀ f ∈ FORMATS, f.Sound := by
  intro f hf
  simp only [FORMATS, List.mem_cons, List.not_mem_nil, or_false] at hf
  rcases hf with rfl | rfl | rfl | rfl | rfl | rfl | rfl | rfl <;> constructor <;> decide

theorem formats_small : ∀ f ∈ FORMATS, f.Small := by decide

/-! ## Rounding up -/

theorem le_div_ceil_mul (n : ℕ) {d : ℕ} (hd : 1 ≤ d) : n ≤ div_ceil n d * d := by
  have hdiv := Nat.div_add_mod (n + d - 1) d
  have hlt := Nat.mod_lt (n + d - 1) (show 0 < d by omega)
  unfold div_ceil
  rw [Nat.mul_comm]
  omega

theorem div_ceil_mul_lt (n : ℕ) {d : ℕ} (hd : 1 ≤ d) : div_ceil n d * d < n + d := by
  have hdiv := Nat.div_mul_le_self (n + d - 1) d
  unfold div_ceil
  omega

/-! ## One turn of the loop -/

/-- A length that was read is one the format can spell. -/
theorem read_bits_lt {b : Bytes} {off len : ℕ} (h : off + len ≤ b.length * 8) (hlen : len ≤ 64) :
    read_bits b off len < 2 ^ len := by
  apply Nat.lt_pow_two_of_testBit
  intro k hk
  rw [testBit_read_bits h hlen, if_neg (by omega)]

/-- The octets an item of that length takes. -/
def extent (f : TlvFmt) (len : ℕ) : ℕ :=
  if f.len_covers_header then max (len * f.len_scale) f.header_len
  else f.header_len + len * f.len_scale

/-- The octets it takes up to the next item. -/
def stride (f : TlvFmt) (len : ℕ) : ℕ := div_ceil (extent f len) f.align * f.align

theorem header_le_extent (f : TlvFmt) (len : ℕ) : f.header_len ≤ extent f len := by
  unfold extent
  split
  · exact le_max_right _ _
  · exact Nat.le_add_right _ _

/-- And far below the machine word. -/
theorem extent_le {f : TlvFmt} (hf : f.Small) {len : ℕ} (hlen : len < 2 ^ f.len_bits) :
    extent f len + f.align ≤ 2 ^ 63 := by
  have hmul : len * f.len_scale ≤ (2 ^ f.len_bits - 1) * f.len_scale :=
    Nat.mul_le_mul_right _ (by omega)
  unfold TlvFmt.Small at hf
  unfold extent
  split
  · omega
  · omega

theorem stride_bounds {f : TlvFmt} (hf : f.Sound) (len : ℕ) :
    extent f len ≤ stride f len ∧ stride f len < extent f len + f.align :=
  ⟨le_div_ceil_mul _ hf.align_pos, div_ceil_mul_lt _ hf.align_pos⟩

/-- An extent that is a machine word is what the code computes. -/
theorem total_eq {f : TlvFmt} {len : ℕ} (hext : extent f len < 2 ^ 64) :
    total f len = some (extent f len) := by
  have hclaimed : len * f.len_scale ≤ extent f len := by
    unfold extent
    split
    · exact le_max_left _ _
    · exact Nat.le_add_left _ _
  unfold total usize extent at *
  dsimp only
  rw [Nat.min_eq_left (by omega)]
  split
  · rfl
  · rename_i hcovers
    rw [if_neg hcovers] at hext
    rw [if_pos hext]

/-- The header octets at `i`. -/
def header (data : Bytes) (f : TlvFmt) (i : ℕ) : Bytes := slice data i (i + f.header_len)

/-- The length read at `i`. -/
def len_at (data : Bytes) (f : TlvFmt) (i : ℕ) : ℕ :=
  read_bits (header data f i) (f.tag_bits + f.mid_bits) f.len_bits

/-- The item read at `i`. -/
def raw_at (data : Bytes) (f : TlvFmt) (i : ℕ) : Raw where
  tag := read_bits (header data f i) 0 f.tag_bits % 2 ^ 32
  mid := read_bits (header data f i) f.tag_bits f.mid_bits
  start := i + f.header_len
  stop := i + extent f (len_at data f i)

theorem len_at_lt {data : Bytes} {f : TlvFmt} (hf : f.Sound) {i : ℕ}
    (hroom : i + f.header_len ≤ data.length) : len_at data f i < 2 ^ f.len_bits := by
  have heq := hf.header_eq
  have hlen := hf.len_le
  apply read_bits_lt
  · rw [header, length_slice hroom]
    omega
  · omega

/-- No header is left. -/
theorem walk_loop_stop {data : Bytes} {f : TlvFmt} (hf : f.Sound) (hdata : data.length < 2 ^ 63)
    (guard : ℕ) {i : ℕ} (hi : i < data.length + f.align) (hroom : data.length < i + f.header_len) :
    walk_loop data f guard i = some [] := by
  have hsmall := hf.align_le
  cases guard with
  | zero => rfl
  | succ guard => rw [walk_loop, usize, if_pos (by omega), Option.bind_some, if_pos hroom]

/-- **What one turn of the loop does**, in a region a machine can hold. -/
theorem walk_loop_succ {data : Bytes} {f : TlvFmt} (hf : f.Sound) (hdata : data.length < 2 ^ 63)
    (guard : ℕ) {i : ℕ} (hroom : i + f.header_len ≤ data.length)
    (hext : extent f (len_at data f i) + f.align ≤ 2 ^ 64)
    (hstop : i + extent f (len_at data f i) < 2 ^ 64) :
    walk_loop data f (guard + 1) i =
      if data.length < i + extent f (len_at data f i) then some []
      else if some (raw_at data f i).tag = f.end_tag then some [raw_at data f i]
      else (walk_loop data f guard (i + stride f (len_at data f i))).map
        fun out => raw_at data f i :: out := by
  have halign := hf.align_pos
  have halign_le := hf.align_le
  have hlo := header_le_extent f (len_at data f i)
  obtain ⟨hround, hround_lt⟩ := stride_bounds hf (len_at data f i)
  have htotal : total f (len_at data f i) = some (extent f (len_at data f i)) :=
    total_eq (by omega)
  have hlen : read_bits (slice data i (i + f.header_len)) (f.tag_bits + f.mid_bits) f.len_bits =
      len_at data f i := rfl
  have hpad : div_ceil (extent f (len_at data f i)) f.align * f.align =
      stride f (len_at data f i) := rfl
  rw [walk_loop, usize, if_pos (by omega), Option.bind_some, if_neg (by omega)]
  dsimp only
  rw [hlen, htotal, Option.bind_some, hpad, usize, if_pos (by omega), Option.bind_some, usize,
    if_pos (by omega), Option.bind_some]
  by_cases hin : data.length < i + extent f (len_at data f i)
  · rw [if_pos hin, if_pos hin]
  · rw [if_neg hin, if_neg hin]
    by_cases hend : some (read_bits (slice data i (i + f.header_len)) 0 f.tag_bits % 2 ^ 32) =
        f.end_tag
    · rw [if_pos hend]
      exact (if_pos hend).symm
    · -- The padded size is at least a header, and the next start is still a machine word.
      rw [if_neg hend, Nat.max_eq_left (by omega), usize, if_pos (by omega), Option.bind_some]
      exact (if_neg hend).symm

/-! ## Any octets -/

/-- Items one behind the other, from `i` on, inside the first `n` octets. -/
def Laid (n : ℕ) : ℕ → List Raw → Prop
  | _, [] => True
  | i, r :: out => i ≤ r.start ∧ r.start ≤ r.stop ∧ r.stop ≤ n ∧ Laid n r.stop out

theorem Laid.mono {n : ℕ} {out : List Raw} {i j : ℕ} (hij : i ≤ j) (h : Laid n j out) :
    Laid n i out := by
  cases out with
  | nil => trivial
  | cons r out => exact ⟨hij.trans h.1, h.2⟩

theorem Laid.bounds {n : ℕ} {out : List Raw} {i : ℕ} (h : Laid n i out) :
    ∀ r ∈ out, i ≤ r.start ∧ r.start ≤ r.stop ∧ r.stop ≤ n := by
  induction out generalizing i with
  | nil => simp
  | cons r out ih =>
    obtain ⟨hi, hr, hn, hout⟩ := h
    intro s hs
    rcases List.mem_cons.1 hs with rfl | hs
    · exact ⟨hi, hr, hn⟩
    · obtain ⟨hlo, hrest⟩ := ih hout s hs
      exact ⟨by omega, hrest⟩

/-- They come one behind the other. -/
theorem Laid.pairwise {n : ℕ} {out : List Raw} {i : ℕ} (h : Laid n i out) :
    out.Pairwise fun r s => r.stop ≤ s.start := by
  induction out generalizing i with
  | nil => exact List.Pairwise.nil
  | cons r out ih =>
    obtain ⟨_, _, _, hout⟩ := h
    exact List.Pairwise.cons (fun s hs => (hout.bounds s hs).1) (ih hout)

/-- **The loop ends, with values in bounds, disjoint and in order.** -/
theorem walk_loop_laid {data : Bytes} {f : TlvFmt} (hf : f.Sound) (hsmall : f.Small) (hdata : data.length < 2 ^ 63)
    (guard : ℕ) {i : ℕ} (hi : i < data.length + f.align) :
    ∃ out, walk_loop data f guard i = some out ∧ out.length ≤ guard ∧ Laid data.length i out := by
  -- By the guard; an option that is there moves the walk over it, and one that is not ends it.
  induction guard generalizing i with
  | zero => exact ⟨[], rfl, le_rfl, trivial⟩
  | succ guard ih =>
    by_cases hroom : i + f.header_len ≤ data.length
    · have hlo := header_le_extent f (len_at data f i)
      have hhi := extent_le hsmall (len_at_lt hf hroom)
      obtain ⟨hround, hround_lt⟩ := stride_bounds hf (len_at data f i)
      rw [walk_loop_succ hf hdata guard hroom (by omega) (by omega)]
      by_cases hin : data.length < i + extent f (len_at data f i)
      · exact ⟨[], if_pos hin, Nat.zero_le _, trivial⟩
      · have hraw : i ≤ (raw_at data f i).start ∧
            (raw_at data f i).start ≤ (raw_at data f i).stop ∧
            (raw_at data f i).stop ≤ data.length := by
          simp only [raw_at]
          omega
        rw [if_neg hin]
        by_cases hend : some (raw_at data f i).tag = f.end_tag
        · exact ⟨[raw_at data f i], if_pos hend, by simp, hraw.1, hraw.2.1, hraw.2.2, trivial⟩
        · rw [if_neg hend]
          obtain ⟨out, hout, hlen, hlaid⟩ := ih (show i + stride f (len_at data f i) < _ by omega)
          refine ⟨raw_at data f i :: out, by rw [hout, Option.map_some], ?_, hraw.1, hraw.2.1,
            hraw.2.2, hlaid.mono ?_⟩
          · rw [List.length_cons]
            omega
          · simp only [raw_at]
            omega
    · exact ⟨[], walk_loop_stop hf hdata _ hi (by omega), Nat.zero_le _, trivial⟩

/-! ## What a writer lays down -/

/-- One item before it is written. -/
structure TlvItem where
  tag : ℕ
  mid : ℕ
  value : Bytes
deriving DecidableEq, Repr

/-- The item a decoded one names. -/
def Raw.item (data : Bytes) (r : Raw) : TlvItem := ⟨r.tag, r.mid, r.value data⟩

namespace TlvItem

/-- The octets the length counts. -/
def counted (f : TlvFmt) (it : TlvItem) : ℕ :=
  (if f.len_covers_header then f.header_len else 0) + it.value.length

/-- The header as one number: tag, mid and length side by side. -/
def header_word (f : TlvFmt) (it : TlvItem) : ℕ :=
  (it.tag * 2 ^ f.mid_bits + it.mid) * 2 ^ f.len_bits + it.counted f / f.len_scale

/-- The item's octets, not padded. -/
def octets (f : TlvFmt) (it : TlvItem) : Bytes :=
  octets_of f.header_len (it.header_word f) ++ it.value

/-- What is missing to the next multiple of the alignment. -/
def gap (f : TlvFmt) (it : TlvItem) : ℕ :=
  div_ceil (it.octets f).length f.align * f.align - (it.octets f).length

/-- The format can spell the item: its tag in a `u32`, its length a whole number of units. -/
structure Representable (f : TlvFmt) (it : TlvItem) : Prop where
  tag_lt : it.tag < 2 ^ f.tag_bits
  tag_u32 : it.tag < 2 ^ 32
  mid_lt : it.mid < 2 ^ f.mid_bits
  whole : it.counted f % f.len_scale = 0
  len_lt : it.counted f / f.len_scale < 2 ^ f.len_bits

end TlvItem

/-- What a writer lays down for a list of items: each padded to the alignment, with any octets, and
the last one padded or not. -/
inductive Serialised (f : TlvFmt) : List TlvItem → Bytes → Prop
  | nil : Serialised f [] []
  | last (it : TlvItem) : Serialised f [it] (it.octets f)
  | cons (it : TlvItem) {items : List TlvItem} {pad rest : Bytes} (hpad : pad.length = it.gap f)
      (hrest : Serialised f items rest) : Serialised f (it :: items) (it.octets f ++ pad ++ rest)

/-- The items up to the first that closes the region, which is one of them. -/
def upto_end (f : TlvFmt) : List TlvItem → List TlvItem
  | [] => []
  | it :: items => if some it.tag = f.end_tag then [it] else it :: upto_end f items

/-! ## Reading it back -/

/-- What is read of a number written as octets. -/
theorem read_bits_octets_of {n off len : ℕ} (h : off + len ≤ 8 * n) (hlen : len ≤ 64) (v : ℕ) :
    read_bits (octets_of n v) off len = v / 2 ^ (8 * n - off - len) % 2 ^ len := by
  apply Nat.eq_of_testBit_eq
  intro k
  rw [testBit_read_bits (by rw [length_octets_of]; omega) hlen, Nat.testBit_mod_two_pow,
    Nat.testBit_div_two_pow]
  by_cases hk : k < len
  · rw [if_pos hk, bit_octets_of (by omega), decide_eq_true hk, Bool.true_and]
    congr 1
    omega
  · rw [if_neg hk, decide_eq_false hk, Bool.false_and]

@[simp] theorem length_octets (f : TlvFmt) (it : TlvItem) :
    (it.octets f).length = f.header_len + it.value.length := by
  simp [TlvItem.octets, length_octets_of]

/-- The length that is written is the extent of the item. -/
theorem extent_written {f : TlvFmt} {it : TlvItem} (hit : it.Representable f) :
    extent f (it.counted f / f.len_scale) = f.header_len + it.value.length := by
  have hwhole := Nat.div_mul_cancel (Nat.dvd_of_mod_eq_zero hit.whole)
  unfold extent
  rw [hwhole]
  unfold TlvItem.counted
  split
  · omega
  · omega

/-- The header octets of an item behind `front`. -/
theorem header_written (f : TlvFmt) (it : TlvItem) (front rest : Bytes) :
    header (front ++ (it.octets f ++ rest)) f front.length =
      octets_of f.header_len (it.header_word f) := by
  rw [header, slice_append_right front rfl, TlvItem.octets, List.append_assoc,
    List.take_left' (length_octets_of _ _)]

/-- Its value octets. -/
theorem value_written (f : TlvFmt) (it : TlvItem) (front rest : Bytes) :
    slice (front ++ (it.octets f ++ rest)) (front.length + f.header_len)
      (front.length + (f.header_len + it.value.length)) = it.value := by
  have hsplit : front ++ (it.octets f ++ rest) =
      (front ++ octets_of f.header_len (it.header_word f)) ++ (it.value ++ rest) := by
    simp [TlvItem.octets]
  rw [hsplit, ← Nat.add_assoc, slice_append_right _ (by simp [length_octets_of]), List.take_left]

/-- The tag and what lies between it and the length, behind the bits of the length. -/
theorem tag_mid_word {f : TlvFmt} {it : TlvItem} (hit : it.Representable f) :
    it.header_word f / 2 ^ f.len_bits = it.tag * 2 ^ f.mid_bits + it.mid := by
  rw [TlvItem.header_word, Nat.mul_comm, Nat.mul_add_div (Nat.two_pow_pos _),
    Nat.div_eq_of_lt hit.len_lt, Nat.add_zero]

section Written

variable {f : TlvFmt} (hf : f.Sound) {it : TlvItem} (hit : it.Representable f) (front rest : Bytes)

include hf hit

theorem len_at_written :
    len_at (front ++ (it.octets f ++ rest)) f front.length = it.counted f / f.len_scale := by
  have heq := hf.header_eq
  have hlen := hf.len_le
  have hshift : 8 * f.header_len - (f.tag_bits + f.mid_bits) - f.len_bits = 0 := by omega
  rw [len_at, header_written, read_bits_octets_of (by omega) (by omega), hshift, pow_zero,
    Nat.div_one, TlvItem.header_word, Nat.mul_add_mod_of_lt hit.len_lt]

/-- **The item behind `front` is read as it was written.** -/
theorem raw_at_written :
    (raw_at (front ++ (it.octets f ++ rest)) f front.length).item
      (front ++ (it.octets f ++ rest)) = it := by
  have heq := hf.header_eq
  have htag_le := hf.tag_le
  have hmid_le := hf.mid_le
  have htag : read_bits (octets_of f.header_len (it.header_word f)) 0 f.tag_bits = it.tag := by
    have hshift : 8 * f.header_len - 0 - f.tag_bits = f.len_bits + f.mid_bits := by omega
    rw [read_bits_octets_of (by omega) htag_le, hshift, pow_add, ← Nat.div_div_eq_div_mul,
      tag_mid_word hit, Nat.mul_comm, Nat.mul_add_div (Nat.two_pow_pos _),
      Nat.div_eq_of_lt hit.mid_lt, Nat.add_zero, Nat.mod_eq_of_lt hit.tag_lt]
  have hmid : read_bits (octets_of f.header_len (it.header_word f)) f.tag_bits f.mid_bits =
      it.mid := by
    have hshift : 8 * f.header_len - f.tag_bits - f.mid_bits = f.len_bits := by omega
    rw [read_bits_octets_of (by omega) hmid_le, hshift, tag_mid_word hit,
      Nat.mul_add_mod_of_lt hit.mid_lt]
  simp only [raw_at, Raw.item, Raw.value]
  rw [header_written, htag, hmid, len_at_written hf hit, extent_written hit, value_written,
    Nat.mod_eq_of_lt hit.tag_u32]

/-- One turn of the loop on an item that was written. -/
theorem walk_loop_written {data : Bytes} (hdata : data = front ++ (it.octets f ++ rest))
    (hroom : data.length < 2 ^ 63) (guard : ℕ) :
    ∃ r, r.item data = it ∧ walk_loop data f (guard + 1) front.length =
      if some it.tag = f.end_tag then some [r]
      else (walk_loop data f guard (front.length + ((it.octets f).length + it.gap f))).map
        fun out => r :: out := by
  have hlen : data.length = front.length + (f.header_len + it.value.length + rest.length) := by
    rw [hdata]
    simp
  have hraw := raw_at_written hf hit front rest
  have hlen_at := len_at_written hf hit front rest
  rw [← hdata] at hraw hlen_at
  have htag : (raw_at data f front.length).tag = it.tag := congrArg TlvItem.tag hraw
  -- the stride covers the item and the gap up to the next boundary
  have hstride : stride f (it.counted f / f.len_scale) = (it.octets f).length + it.gap f := by
    have hround := (stride_bounds hf (it.counted f / f.len_scale)).1
    unfold stride TlvItem.gap at *
    rw [extent_written hit] at *
    rw [length_octets]
    omega
  refine ⟨raw_at data f front.length, hraw, ?_⟩
  have halign := hf.align_le
  have hext : extent f (len_at data f front.length) = f.header_len + it.value.length := by
    rw [hlen_at, extent_written hit]
  rw [walk_loop_succ hf hroom guard (by omega) (by omega) (by omega), hlen_at, extent_written hit, hstride, htag,
    if_neg (by omega)]

end Written

/-- **The items are read back**, up to the one that closes the region. -/
theorem walk_loop_serialised {f : TlvFmt} (hf : f.Sound) {items : List TlvItem} {bytes : Bytes}
    (hser : Serialised f items bytes) (hrep : ∀ it ∈ items, it.Representable f) {guard : ℕ}
    (hguard : items.length ≤ guard) (front : Bytes) (hroom : (front ++ bytes).length < 2 ^ 63) :
    ∃ out, walk_loop (front ++ bytes) f guard front.length = some out ∧
      out.map (Raw.item (front ++ bytes)) = upto_end f items := by
  have hpos := hf.header_pos
  have halign := hf.align_pos
  induction hser generalizing guard front with
  | nil =>
    refine ⟨[], walk_loop_stop hf hroom guard ?_ ?_, rfl⟩
    · simp only [List.append_nil]
      omega
    · simp only [List.append_nil]
      omega
  | last it =>
    obtain ⟨guard, rfl⟩ : ∃ n, guard = n + 1 := ⟨guard - 1, by simp at hguard; omega⟩
    have hit := hrep it (List.mem_singleton_self it)
    obtain ⟨r, hr, hturn⟩ := walk_loop_written hf hit front [] (by rw [List.append_nil]) hroom guard
    rw [hturn, upto_end]
    by_cases hend : some it.tag = f.end_tag
    · exact ⟨[r], if_pos hend, by rw [if_pos hend, List.map_singleton, hr]⟩
    · -- What the last item lacks to the alignment may not be there: the walk is over anyway.
      have hstop : walk_loop (front ++ it.octets f) f guard
          (front.length + ((it.octets f).length + it.gap f)) = some [] := by
        have hgap := div_ceil_mul_lt (it.octets f).length halign
        apply walk_loop_stop hf hroom
        · rw [List.length_append]
          unfold TlvItem.gap
          omega
        · rw [List.length_append]
          omega
      rw [if_neg hend, if_neg hend, hstop]
      exact ⟨[r], rfl, by rw [List.map_singleton, hr, upto_end]⟩
  | cons it hpad hrest ih =>
    rename_i items pad rest
    obtain ⟨guard, rfl⟩ : ∃ n, guard = n + 1 := ⟨guard - 1, by simp at hguard; omega⟩
    have hit := hrep it List.mem_cons_self
    have hdata : front ++ (it.octets f ++ pad ++ rest) = front ++ (it.octets f ++ (pad ++ rest)) := by
      rw [List.append_assoc]
    obtain ⟨r, hr, hturn⟩ := walk_loop_written hf hit front (pad ++ rest) hdata hroom guard
    rw [hturn, upto_end]
    by_cases hend : some it.tag = f.end_tag
    · exact ⟨[r], if_pos hend, by rw [if_pos hend, List.map_singleton, hr]⟩
    · have hsplit : front ++ (it.octets f ++ pad ++ rest) = front ++ it.octets f ++ pad ++ rest := by
        simp
      have hnext : front.length + ((it.octets f).length + it.gap f) =
          (front ++ it.octets f ++ pad).length := by
        simp only [List.length_append, hpad]
        omega
      obtain ⟨out, hout, hitems⟩ := ih (fun x hx => hrep x (List.mem_cons_of_mem it hx))
        (by simpa using hguard) (front ++ it.octets f ++ pad) (by rw [← hsplit]; exact hroom)
      rw [← hsplit, ← hnext] at hout
      rw [← hsplit] at hitems
      rw [if_neg hend, if_neg hend, hout]
      exact ⟨r :: out, rfl, by rw [List.map_cons, hr, hitems]⟩

/-- **`walk` reads back what a writer lays down**, and of any octets its values are in bounds,
disjoint and in order. -/
theorem walk_reads_back {f : TlvFmt} (hf : f.Sound) :
    (∀ items bytes, Serialised f items bytes → (∀ it ∈ items, it.Representable f) →
      items.length ≤ 512 → bytes.length < 2 ^ 63 →
      ∃ out, walk bytes f = some out ∧ out.map (Raw.item bytes) = upto_end f items) ∧
    (f.Small → ∀ data : Bytes, data.length < 2 ^ 63 →
      ∃ out, walk data f = some out ∧ out.length ≤ 512 ∧
        (∀ r ∈ out, r.start ≤ r.stop ∧ r.stop ≤ data.length) ∧
        out.Pairwise fun r s => r.stop ≤ s.start) := by
  constructor
  · intro items bytes hser hrep hcount hroom
    exact walk_loop_serialised hf hser hrep hcount [] hroom
  · intro hsmall data hdata
    have halign := hf.align_pos
    obtain ⟨out, hout, hlen, hlaid⟩ :=
      walk_loop_laid hf hsmall hdata 512 (show 0 < data.length + f.align by omega)
    exact ⟨out, hout, hlen, fun r hr => (hlaid.bounds r hr).2, hlaid.pairwise⟩

/-- An SCTP chunk of flags `3` and five octets, its three octets of padding left out. -/
theorem walk_reads_back_sctp :
    ∃ out, walk [1, 3, 0, 9, 10, 11, 12, 13, 14]
        ((((TlvFmt.new 8 16).with_mid 8).covering_header).aligned 4) = some out ∧
      out.map (Raw.item [1, 3, 0, 9, 10, 11, 12, 13, 14]) = [⟨1, 3, [10, 11, 12, 13, 14]⟩] :=
  (walk_reads_back (formats_sound _ (by decide))).1
    [⟨1, 3, [10, 11, 12, 13, 14]⟩] [1, 3, 0, 9, 10, 11, 12, 13, 14]
    (Serialised.last ⟨1, 3, [10, 11, 12, 13, 14]⟩)
    (by simp only [List.mem_singleton, forall_eq]; constructor <;> decide)
    (by decide) (by decide)

/-- Without a header octet nothing ends the loop but its count. -/
theorem walk_loop_empty (guard : ℕ) :
    walk_loop [] (TlvFmt.new 0 0) guard 0 = some (List.replicate guard ⟨0, 0, 0, 0⟩) := by
  induction guard with
  | zero => rfl
  | succ guard ih =>
    rw [walk_loop, List.replicate_succ]
    show (walk_loop [] (TlvFmt.new 0 0) guard 0).map (fun out => ⟨0, 0, 0, 0⟩ :: out) = _
    rw [ih, Option.map_some]

/-- A format of no bits at all, whose region of no items is read as 512 of them, and one whose
lengths do not fit a machine word, where four octets stop the program. -/
theorem no_header_reads_items :
    ((TlvFmt.new 0 0).tag_bits + (TlvFmt.new 0 0).mid_bits + (TlvFmt.new 0 0).len_bits = 0 ∧
      Serialised (TlvFmt.new 0 0) [] [] ∧
      ¬ ∃ out, walk [] (TlvFmt.new 0 0) = some out ∧
        out.map (Raw.item []) = upto_end (TlvFmt.new 0 0) []) ∧
    walk [0, 0, 0, 2] ((TlvFmt.new 16 16).scaled (2 ^ 63)) = none := by
  refine ⟨⟨rfl, Serialised.nil, ?_⟩, by decide +kernel⟩
  rintro ⟨out, hout, hitems⟩
  have hwalk := walk_loop_empty 512
  rw [show walk_loop [] (TlvFmt.new 0 0) 512 0 = walk [] (TlvFmt.new 0 0) from rfl, hout,
    Option.some_inj] at hwalk
  have hlen := congrArg List.length hitems
  rw [List.length_map, hwalk, List.length_replicate, upto_end] at hlen
  exact absurd hlen (by decide)

end Wiry.Tlv
