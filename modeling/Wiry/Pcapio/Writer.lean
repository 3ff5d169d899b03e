/-
`RawPcapWriter` of `python/wiry/pcapio.py` against `split_time` and `write_record` of
`crates/wiry-core/src/pcap.rs`, which it says it encodes as.

A time is the exact rational it is, where both have the nearest double. The record goes out in the
byte order of the machine, which is little-endian, as it does with `endianness="<"`.
-/
import Wiry.Capture.Pcap
import Wiry.Lib.Rounding

set_option autoImplicit false

namespace Wiry.Pcapio

open Packet Endian Capture Rounding

/-! ## The two writers -/

/-- Fractions to a second. -/
def scale (nano : Bool) : ℤ := if nano then 1000000000 else 1000000

/-- Python's `int` of a number. -/
def int_of (t : ℚ) : ℤ := if 0 ≤ t then ⌊t⌋ else ⌈t⌉

/-- `struct.pack` of an `I`, which raises for what 32 bits do not hold. -/
def pack_I (v : ℤ) : Option Bytes :=
  if 0 ≤ v ∧ v < 2 ^ 32 then some (le32 (UInt32.ofNat v.toNat)) else none

namespace RawPcapWriter

def _get_time (nano : Bool) (time : ℚ) : ℚ × ℤ :=
  (time, half_even ((time - int_of time) * scale nano))

def _write_packet (packet : Bytes) (sec : ℚ) (usec : ℤ) (caplen wirelen : ℕ) : Option Bytes :=
  match pack_I (int_of sec), pack_I usec, pack_I caplen, pack_I (max wirelen caplen : ℕ) with
  | some sec, some usec, some caplen, some wirelen => some (sec ++ usec ++ caplen ++ wirelen ++ packet)
  | _, _, _, _ => none

/-- `write_packet`: a wire length of zero is none. -/
def write_packet (nano : Bool) (packet : Bytes) (time : ℚ) (wirelen : ℕ) : Option Bytes :=
  let (sec, usec) := _get_time nano time
  let caplen := packet.length
  _write_packet packet sec usec caplen (if wirelen = 0 then caplen else wirelen)

end RawPcapWriter

/-- `as u32` of a rounded float. -/
def as_u32 (v : ℤ) : UInt32 := UInt32.ofNat (min v.toNat (2 ^ 32 - 1))

/-- `split_time`. -/
def split_time (t : ℚ) (nanos : Bool) : UInt32 × UInt32 :=
  if ¬ 0 < t then (0, 0)
  else
    let secs := ⌊t⌋
    if secs ≥ 2 ^ 32 - 1 then (UInt32.ofNat (2 ^ 32 - 1), as_u32 (scale nanos) - 1)
    else
      let frac := as_u32 (half_away ((t - secs) * scale nanos))
      if frac ≥ as_u32 (scale nanos) then (as_u32 secs + 1, 0) else (as_u32 secs, frac)

/-- The header a record goes out behind. -/
def header_of (record : Bytes) : Bytes := record.take 16

/-- Both writers put the same header in front of a record, and its fraction is one of a second. -/
def SameHeader (nano : Bool) (packet : Bytes) (t : ℚ) (wirelen : UInt32) : Prop :=
  (RawPcapWriter.write_packet nano packet t wirelen.toNat).map header_of
      = some (header_of (Pcap.write_record (split_time t nano).1 (split_time t nano).2 packet wirelen)) ∧
    (RawPcapWriter._get_time nano t).2 < scale nano

/-! ## Where they agree -/

theorem pack_I_eq {v : ℤ} (h0 : 0 ≤ v) (h : v < 2 ^ 32) : pack_I v = some (le32 (as_u32 v)) := by
  unfold pack_I as_u32
  rw [if_pos ⟨h0, h⟩, Nat.min_eq_left (by omega)]

theorem scale_pos (nano : Bool) : 0 < scale nano ∧ scale nano < 2 ^ 31 := by
  cases nano with
  | false => decide
  | true => decide

variable {nano : Bool} {t : ℚ}

/-- The fraction of the last second, in the writer's own. -/
def fraction (nano : Bool) (t : ℚ) : ℚ := (t - ⌊t⌋) * scale nano

theorem fraction_bounds (nano : Bool) (t : ℚ) :
    0 ≤ fraction nano t ∧ fraction nano t < scale nano := by
  have hlo := Int.floor_le t
  have hhi := Int.lt_floor_add_one t
  have hpos : (0 : ℚ) < scale nano := by exact_mod_cast (scale_pos nano).1
  constructor
  · exact mul_nonneg (by linarith) hpos.le
  · have hone : t - ⌊t⌋ < 1 := by linarith
    have hmul := mul_lt_mul_of_pos_right hone hpos
    rw [one_mul] at hmul
    exact hmul

/-- The fraction carries into the seconds from half a step below the next one on. -/
theorem split_time_eq (h0 : 0 ≤ t) (hmax : t < 2 ^ 32 - 1) :
    split_time t nano = if fraction nano t < scale nano - 1 / 2
      then (as_u32 ⌊t⌋, as_u32 (half_away (fraction nano t)))
      else (as_u32 ⌊t⌋ + 1, 0) := by
  obtain ⟨hlo, hhi⟩ := fraction_bounds nano t
  obtain ⟨hpos, hscale⟩ := scale_pos nano
  have hfloor : ⌊t⌋ < 2 ^ 32 - 1 := by
    have hcast : ((2 ^ 32 - 1 : ℤ) : ℚ) = 2 ^ 32 - 1 := by norm_num
    rw [Int.floor_lt, hcast]
    exact hmax
  have hle : half_away (fraction nano t) ≤ scale nano := by
    have hlt := (half_away_lt_iff hlo (scale nano + 1)).2 (by push_cast; linarith)
    omega
  have hnonneg := half_away_nonneg hlo
  unfold split_time
  by_cases ht : 0 < t
  · rw [if_neg (not_not.2 ht)]
    dsimp only
    rw [if_neg (by omega)]
    have hcarry : as_u32 (half_away ((t - ⌊t⌋) * scale nano)) ≥ as_u32 (scale nano) ↔
        ¬ fraction nano t < scale nano - 1 / 2 := by
      rw [← half_away_lt_iff hlo, ge_iff_le, UInt32.le_iff_toNat_le]
      unfold as_u32
      rw [UInt32.toNat_ofNat', UInt32.toNat_ofNat']
      unfold fraction at hle hnonneg ⊢
      omega
    by_cases hlt : fraction nano t < scale nano - 1 / 2
    · rw [if_pos hlt, if_neg fun h => hcarry.1 h hlt]
      rfl
    · rw [if_neg hlt, if_pos (hcarry.2 hlt)]
  · -- at zero nothing is left over
    have hzero : t = 0 := le_antisymm (not_lt.1 ht) h0
    have hnone : fraction nano t = 0 := by
      unfold fraction
      rw [hzero]
      simp
    have hlt : fraction nano t < scale nano - 1 / 2 := by
      rw [hnone]
      have hone : (1 : ℚ) ≤ scale nano := by exact_mod_cast hpos
      linarith
    have hrounded : half_away (0 : ℚ) = 0 := half_away_natCast 0
    rw [if_pos ht, if_pos hlt, hnone, hrounded, hzero, Int.floor_zero]
    rfl

theorem get_time_eq (h0 : 0 ≤ t) :
    RawPcapWriter._get_time nano t = (t, half_even (fraction nano t)) := by
  unfold RawPcapWriter._get_time int_of fraction
  rw [if_pos h0]

theorem pack_I_eq_none {v : ℤ} (h : 2 ^ 32 ≤ v) : pack_I v = none := by
  unfold pack_I
  rw [if_neg (by omega)]

/-- A word is told by its octets. -/
theorem le32_injective {v w : UInt32} (h : le32 v = le32 w) : v = w := by
  have hv := value_digits_of_lt (n := 4) v.toNat_lt
  have hw := value_digits_of_lt (n := 4) w.toNat_lt
  apply UInt32.toNat_inj.1
  rw [← hv, ← hw]
  exact congrArg value h

/-- Two headers are the same where their four words are. -/
theorem header_words {a b c d a' b' c' d' : UInt32} {rest rest' : Bytes}
    (h : header_of (le32 a ++ le32 b ++ le32 c ++ le32 d ++ rest)
      = header_of (le32 a' ++ le32 b' ++ le32 c' ++ le32 d' ++ rest')) :
    a = a' ∧ b = b' ∧ c = c' ∧ d = d' := by
  have hlen : ∀ a b c d : UInt32, (le32 a ++ le32 b ++ le32 c ++ le32 d).length = 16 := by
    intro a b c d
    simp only [List.length_append, length_le32]
  unfold header_of at h
  rw [List.take_left' (hlen a b c d), List.take_left' (hlen a' b' c' d')] at h
  obtain ⟨h, hd⟩ := List.append_inj' h (by rw [length_le32, length_le32])
  obtain ⟨h, hc⟩ := List.append_inj' h (by rw [length_le32, length_le32])
  obtain ⟨ha, hb⟩ := List.append_inj' h (by rw [length_le32, length_le32])
  exact ⟨le32_injective ha, le32_injective hb, le32_injective hc, le32_injective hd⟩

theorem toNat_as_u32 {v : ℤ} (h : v < 2 ^ 32) : (as_u32 v).toNat = v.toNat := by
  unfold as_u32
  rw [UInt32.toNat_ofNat']
  omega

theorem toNat_max (a b : UInt32) : (max a b).toNat = max a.toNat b.toNat := by
  show (if a ≤ b then b else a).toNat = _
  by_cases h : a ≤ b
  · rw [if_pos h, max_eq_right (UInt32.le_iff_toNat_le.1 h)]
  · rw [if_neg h, max_eq_left (Nat.le_of_not_le fun hle => h (UInt32.le_iff_toNat_le.2 hle))]

/-- What the Python writer packs of a packet that 32 bits can count. -/
theorem write_packet_eq (h0 : 0 ≤ t) (hmax : t < 2 ^ 32 - 1) {packet : Bytes}
    (hlen : packet.length < 2 ^ 32) (wirelen : UInt32) :
    RawPcapWriter.write_packet nano packet t wirelen.toNat = some
      (le32 (as_u32 ⌊t⌋) ++ le32 (as_u32 (half_even (fraction nano t))) ++
        le32 (UInt32.ofNat packet.length) ++ le32 (max wirelen (UInt32.ofNat packet.length)) ++ packet) := by
  obtain ⟨hlo, hhi⟩ := fraction_bounds nano t
  obtain ⟨hpos, hscale⟩ := scale_pos nano
  have hfloor : ⌊t⌋ < 2 ^ 32 := by
    have hcast : ((2 ^ 32 : ℤ) : ℚ) = 2 ^ 32 := by norm_num
    rw [Int.floor_lt, hcast]
    linarith
  have hsecs : 0 ≤ ⌊t⌋ := Int.floor_nonneg.2 h0
  have hwhole : 0 ≤ ⌊fraction nano t⌋ := Int.floor_nonneg.2 hlo
  have hbelow : ⌊fraction nano t⌋ < scale nano := Int.floor_lt.2 hhi
  have hup := half_even_le (fraction nano t)
  have hdown := floor_le_half_even (fraction nano t)
  have hint : int_of t = ⌊t⌋ := if_pos h0
  have hwire := wirelen.toNat_lt
  -- a wire length of zero stands for none, and the longer of the two is written either way
  have hlong : max (if wirelen.toNat = 0 then packet.length else wirelen.toNat) packet.length
      = max wirelen.toNat packet.length := by
    split
    · omega
    · rfl
  have hlength : as_u32 (packet.length : ℤ) = UInt32.ofNat packet.length := by
    unfold as_u32
    rw [Int.toNat_natCast, Nat.min_eq_left (by omega)]
  have hlongest : as_u32 ((max wirelen.toNat packet.length : ℕ) : ℤ)
      = max wirelen (UInt32.ofNat packet.length) := by
    apply UInt32.toNat_inj.1
    rw [toNat_as_u32 (by omega), toNat_max, UInt32.toNat_ofNat', Nat.mod_eq_of_lt hlen, Int.toNat_natCast]
  unfold RawPcapWriter.write_packet
  rw [get_time_eq h0]
  dsimp only
  unfold RawPcapWriter._write_packet
  rw [hlong, hint, pack_I_eq hsecs hfloor, pack_I_eq (by omega) (by omega),
    pack_I_eq (Int.natCast_nonneg _) (by omega), pack_I_eq (Int.natCast_nonneg _) (by omega), hlength,
    hlongest]

/-- A packet that 32 bits cannot count is not written. -/
theorem write_packet_long {packet : Bytes} (hlen : 2 ^ 32 ≤ packet.length) (wirelen : ℕ) :
    RawPcapWriter.write_packet nano packet t wirelen = none := by
  unfold RawPcapWriter.write_packet RawPcapWriter._write_packet
  dsimp only
  rw [pack_I_eq_none (v := (packet.length : ℤ)) (by exact_mod_cast hlen)]
  split
  · rename_i h _
    exact absurd h nofun
  · rfl

theorem length_take_all {packet : Bytes} (hlen : packet.length < 2 ^ 32) :
    packet.take (min packet.length (2 ^ 32 - 1)) = packet :=
  List.take_of_length_le (by omega)

/-- **The two writers pack the same header** exactly for what 32 bits can count, at a fraction that
neither reaches the next second nor ties down to an even number. -/
theorem same_header_iff (nano : Bool) (packet : Bytes) (t : ℚ) (wirelen : UInt32) (h0 : 0 ≤ t)
    (hmax : t < 2 ^ 32 - 1) :
    SameHeader nano packet t wirelen ↔
      packet.length < 2 ^ 32 ∧ fraction nano t < scale nano - 1 / 2 ∧ ¬ EvenTie (fraction nano t) := by
  obtain ⟨hlo, hhi⟩ := fraction_bounds nano t
  obtain ⟨hpos, hscale⟩ := scale_pos nano
  have hnonneg := half_away_nonneg hlo
  have hwhole : 0 ≤ ⌊fraction nano t⌋ := Int.floor_nonneg.2 hlo
  have hbelow : ⌊fraction nano t⌋ < scale nano := Int.floor_lt.2 hhi
  have hup := half_even_le (fraction nano t)
  have hdown := floor_le_half_even (fraction nano t)
  have hreach := half_away_lt_iff hlo (scale nano)
  unfold SameHeader
  rw [get_time_eq h0, split_time_eq h0 hmax]
  by_cases hlen : packet.length < 2 ^ 32
  · rw [write_packet_eq h0 hmax hlen, Option.map_some]
    unfold Pcap.write_record
    dsimp only
    rw [length_take_all hlen]
    by_cases hlt : fraction nano t < scale nano - 1 / 2
    · rw [if_pos hlt]
      have haway := hreach.2 hlt
      have htie := half_even_eq_half_away_iff hlo
      constructor
      · -- the second word is the fraction, and the two round it alike where it is no even tie
        rintro ⟨hheader, -⟩
        obtain ⟨-, hfrac, -, -⟩ := header_words (Option.some.inj hheader)
        refine ⟨hlen, hlt, htie.1 ?_⟩
        have hnat := congrArg UInt32.toNat hfrac
        rw [toNat_as_u32 (by omega), toNat_as_u32 (by omega)] at hnat
        omega
      · rintro ⟨-, -, hnot⟩
        rw [htie.2 hnot]
        exact ⟨rfl, haway⟩
    · -- the Rust writer carries, and the Python writer has no second to carry into
      rw [if_neg hlt]
      constructor
      · rintro ⟨hheader, hless⟩
        obtain ⟨hsec, -, -, -⟩ := header_words (Option.some.inj hheader)
        have hnat := congrArg UInt32.toNat hsec
        rw [UInt32.toNat_add] at hnat
        have hlt32 := (as_u32 ⌊t⌋).toNat_lt
        have hone : (1 : UInt32).toNat = 1 := rfl
        omega
      · rintro ⟨-, h, -⟩
        exact absurd h hlt
  · rw [write_packet_long (Nat.le_of_not_lt hlen), Option.map_none]
    constructor
    · rintro ⟨h, -⟩
      exact absurd h nofun
    · rintro ⟨h, -⟩
      exact absurd h hlen

/-- A quarter of a second in. -/
theorem same_header_quarter : SameHeader false [1, 2] (5 / 4) 60 := by
  have hfloor : ⌊(5 / 4 : ℚ)⌋ = 1 := by norm_num [Int.floor_eq_iff]
  have hfraction : fraction false (5 / 4) = (250000 : ℤ) := by
    unfold fraction scale
    rw [hfloor]
    norm_num
  refine (same_header_iff false [1, 2] (5 / 4) 60 (by norm_num) (by norm_num)).2 ⟨by decide, ?_, ?_⟩
  · rw [hfraction]
    unfold scale
    norm_num
  · rw [hfraction]
    rintro ⟨h, -⟩
    rw [Int.floor_intCast, sub_self] at h
    norm_num at h

/-- Four tenths of a microsecond before the next second the Python writer's fraction is a whole
second, where the Rust writer's time is that second. -/
theorem whole_second_fraction :
    (0 : ℚ) ≤ 9999996 / 10000000 ∧ (9999996 / 10000000 : ℚ) < 2 ^ 32 - 1 ∧
      (RawPcapWriter._get_time false (9999996 / 10000000)).2 = 1000000 ∧
      split_time (9999996 / 10000000) false = (1, 0) ∧
      ¬ SameHeader false [] (9999996 / 10000000) 0 := by
  have hfloor : ⌊(9999996 / 10000000 : ℚ)⌋ = 0 := by norm_num [Int.floor_eq_iff]
  have hfraction : fraction false (9999996 / 10000000) = 9999996 / 10 := by
    unfold fraction scale
    rw [hfloor]
    norm_num
  have hpart : ⌊(9999996 / 10 : ℚ)⌋ = 999999 := by norm_num [Int.floor_eq_iff]
  -- rounding the fraction gives a whole second, which Python leaves in the field
  have htime : (RawPcapWriter._get_time false (9999996 / 10000000)).2 = 1000000 := by
    rw [get_time_eq (by norm_num), hfraction]
    unfold half_even
    rw [hpart]
    norm_num
  refine ⟨by norm_num, by norm_num, htime, ?_, ?_⟩
  · rw [split_time_eq (by norm_num) (by norm_num), hfraction, hfloor, if_neg]
    · rfl
    · unfold scale
      norm_num
  · rintro ⟨-, hless⟩
    rw [htime] at hless
    exact absurd hless (by decide)

end Wiry.Pcapio
