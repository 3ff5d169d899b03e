/-
ERF records of `python/wiry/pcapio.py`: what `ERFEthernetWriter` writes of a packet and what
`_erf_index` reads of a file.

The time a record is given back with is the exact one `_erf_index` makes a float of. The time of a packet
is a rational: every double is one, and its seconds and the fraction behind them are exact in Python
too. The product of that fraction with a thousand million is rounded to a double before it is rounded to
a whole number, which makes a difference only within a ten-millionth of the middle between two of them.
-/
import Mathlib.Data.Nat.Bitwise
import Wiry.Pcapio.Writer

set_option autoImplicit false

namespace Wiry.Pcapio

open Packet Endian Rounding

/-! ## Writing -/

/-- What `write_packet` reads of a packet. -/
structure Frame where
  raw : Bytes
  time : ℚ
  /-- Zero where the packet has none. -/
  wirelen : ℕ

/-- `struct.pack` of a `<Q`. -/
def pack_Q (v : ℤ) : Option Bytes :=
  if 0 ≤ v ∧ v < 2 ^ 64 then some (digits 8 v.toNat) else none

/-- `struct.pack` of a `>H`. -/
def pack_H (v : ℕ) : Option Bytes := if v < 2 ^ 16 then some (octets_of 2 v) else none

namespace ERFEthernetWriter

/-- `write_packet`: the octets written. -/
def write_packet (pkt : Frame) : Option Bytes :=
  let sec := int_of pkt.time
  let frac := (half_even ((pkt.time - sec) * 10 ^ 9) * 2 ^ 32) / 10 ^ 9
  let wirelen := if pkt.wirelen = 0 then pkt.raw.length else pkt.wirelen
  match pack_Q (sec * 2 ^ 32 + frac), pack_H (pkt.raw.length + 18), pack_H wirelen with
  | some ts, some rlen, some wlen => some (ts ++ [2, 0] ++ rlen ++ [0, 0] ++ wlen ++ [0, 0] ++ pkt.raw)
  | _, _, _ => none

/-- A file has no header: the records one behind the other. -/
def write : List Frame → Option Bytes
  | [] => some []
  | pkt :: rest =>
    match write_packet pkt, write rest with
    | some record, some file => some (record ++ file)
    | _, _ => none

end ERFEthernetWriter

/-! ## Reading -/

/-- ERF's binary fraction of a second as nanoseconds, rounded half up. -/
def _erf_ns (frac : ℕ) : ℕ :=
  let frac := frac * 10 ^ 9
  (frac + (frac &&& 0x80000000) <<< 1) >>> 32

/-- A turn of the loop of `_erf_index`. -/
inductive Turn where
  | ended
  | bad
  /-- A record whose frame lies between two offsets, and where the next one is looked for. -/
  | record (from_ upto : ℕ) (time : ℚ) (wlen : ℕ) (next : ℕ)

def erf_turn (data : Bytes) (at_ : ℕ) : Turn :=
  if at_ + 16 ≤ data.length then
    let ts := value (slice data at_ (at_ + 8))
    let rtype := data.getD (at_ + 8) 0
    let rlen := (be16 data (at_ + 10)).toNat
    let wlen := (be16 data (at_ + 14)).toNat
    if rtype &&& 0x02 = 0 then .bad
    else
      let head := if rtype &&& 0x80 ≠ 0 then 24 else 16
      .record (at_ + head + 2) (min data.length (at_ + max rlen head))
        ((ts >>> 32 : ℕ) + (_erf_ns (ts &&& 0xffffffff) : ℚ) / 10 ^ 9) wlen (at_ + max rlen 16)
  else .ended

/-- A turn moves at least one header ahead and stays within the data. -/
theorem erf_turn_advances {data : Bytes} {at_ from_ upto wlen next : ℕ} {time : ℚ}
    (h : erf_turn data at_ = .record from_ upto time wlen next) :
    at_ + 16 ≤ next ∧ at_ + 16 ≤ data.length ∧ at_ + 16 < from_ ∧ upto ≤ data.length := by
  unfold erf_turn at h
  split at h
  · rename_i hroom
    dsimp only at h
    split at h
    · cases h
    · cases h
      refine ⟨by omega, hroom, ?_, Nat.min_le_left _ _⟩
      split
      · omega
      · omega
  · cases h

/-- The loop from `at_` on; an invalid record type raises. -/
def erf_index_from (data : Bytes) (at_ : ℕ) : Option (List (Bytes × ℚ × ℕ)) :=
  match _h : erf_turn data at_ with
  | .ended => some []
  | .bad => none
  | .record from_ upto time wlen next =>
    (erf_index_from data next).map fun rest => (slice data from_ upto, time, wlen) :: rest
termination_by data.length - at_
decreasing_by
  have hadv := erf_turn_advances _h
  omega

/-- `_erf_index`. -/
def _erf_index (data : Bytes) : Option (List (Bytes × ℚ × ℕ)) := erf_index_from data 0

/-- One turn of the loop. -/
theorem erf_index_from_eq (data : Bytes) (at_ : ℕ) :
    erf_index_from data at_ = match erf_turn data at_ with
      | .ended => some []
      | .bad => none
      | .record from_ upto time wlen next =>
        (erf_index_from data next).map fun rest => (slice data from_ upto, time, wlen) :: rest := by
  rw [erf_index_from]
  split
  · rename_i h
    rw [h]
  · rename_i h
    rw [h]
  · rename_i h
    rw [h]

/-! ## Fractions of a second -/

/-- A number less than half a unit short of a whole one is rounded up to it. -/
theorem carried_half {f ns : ℕ} (hle : f ≤ ns * 2 ^ 32) (hlt : ns * 2 ^ 32 < f + 2 ^ 31) :
    (f + f / 2 ^ 31 % 2 * 2 ^ 31 * 2) / 2 ^ 32 = ns := by
  rcases Nat.lt_or_ge f (ns * 2 ^ 32) with hshort | hfull
  · have hhalf : f / 2 ^ 31 = 2 * (ns - 1) + 1 := by omega
    rw [hhalf, show (2 * (ns - 1) + 1) % 2 = 1 from by omega]
    omega
  · have hhalf : f / 2 ^ 31 = 2 * ns := by omega
    rw [hhalf, show 2 * ns % 2 = 0 from by omega]
    omega

theorem and_half (f : ℕ) : f &&& 0x80000000 = f / 2 ^ 31 % 2 * 2 ^ 31 := by
  have hand := Nat.and_two_pow f 31
  rw [Nat.testBit_eq_decide_div_mod_eq] at hand
  rw [show 0x80000000 = 2 ^ 31 from rfl, hand]
  rcases Nat.mod_two_eq_zero_or_one (f / 2 ^ 31) with hodd | hodd
  · rw [hodd]
    rfl
  · rw [hodd]
    rfl

/-- **The nanoseconds come back.** Cut to 32 bits of a second a fraction loses less than a
nanosecond's worth, which is less than half of what it is rounded to. -/
theorem erf_ns_of_frac (ns : ℕ) : _erf_ns (ns * 2 ^ 32 / 10 ^ 9) = ns := by
  have hdiv := Nat.div_add_mod (ns * 2 ^ 32) (10 ^ 9)
  have hmod := Nat.mod_lt (ns * 2 ^ 32) (show 10 ^ 9 > 0 by norm_num)
  unfold _erf_ns
  dsimp only
  rw [and_half, Nat.shiftLeft_eq, Nat.shiftRight_eq_div_pow, pow_one]
  apply carried_half
  · rw [Nat.mul_comm]
    exact Nat.mul_div_le _ _
  · rw [Nat.mul_comm _ (10 ^ 9)]
    norm_num at hdiv hmod ⊢
    omega

/-- The nanoseconds a time is written as. -/
def nanoseconds (t : ℚ) : ℤ := ⌊t⌋ * 10 ^ 9 + half_even ((t - ⌊t⌋) * 10 ^ 9)

/-- A time that is a whole number of them is written as it is. -/
theorem nanoseconds_exact (n : ℕ) : nanoseconds (n / 10 ^ 9) = n := by
  have hpart : ((n : ℚ) / 10 ^ 9 - ⌊(n : ℚ) / 10 ^ 9⌋) * 10 ^ 9
      = ((n - ⌊(n : ℚ) / 10 ^ 9⌋ * 10 ^ 9 : ℤ) : ℚ) := by
    rw [sub_mul, div_mul_cancel₀ _ (by norm_num)]
    push_cast
    rfl
  unfold nanoseconds
  rw [hpart, half_even_intCast]
  omega

/-- Seconds and nanoseconds come back from the two halves of the timestamp, a whole second of
nanoseconds as a second. -/
theorem time_read (s m : ℕ) (hm : m ≤ 10 ^ 9) :
    (((s * 2 ^ 32 + m * 2 ^ 32 / 10 ^ 9) >>> 32 : ℕ) : ℚ)
        + (_erf_ns ((s * 2 ^ 32 + m * 2 ^ 32 / 10 ^ 9) &&& 0xffffffff) : ℚ) / 10 ^ 9
      = ((s * 10 ^ 9 + m : ℕ) : ℚ) / 10 ^ 9 := by
  have hmask : ∀ v : ℕ, v &&& 0xffffffff = v % 2 ^ 32 := fun v => Nat.and_two_pow_sub_one_eq_mod v 32
  rw [hmask, Nat.shiftRight_eq_div_pow]
  rcases Nat.lt_or_eq_of_le hm with hlt | hfull
  · have hfrac : m * 2 ^ 32 / 10 ^ 9 < 2 ^ 32 := by
      apply Nat.div_lt_of_lt_mul
      exact Nat.mul_lt_mul_of_pos_right hlt (by norm_num)
    have hhigh : (s * 2 ^ 32 + m * 2 ^ 32 / 10 ^ 9) / 2 ^ 32 = s := by omega
    have hlow : (s * 2 ^ 32 + m * 2 ^ 32 / 10 ^ 9) % 2 ^ 32 = m * 2 ^ 32 / 10 ^ 9 := by omega
    rw [hhigh, hlow, erf_ns_of_frac]
    push_cast
    ring
  · -- rounded up to a whole second: the fraction carries into the seconds above it
    have hfrac : m * 2 ^ 32 / 10 ^ 9 = 2 ^ 32 := by
      rw [hfull]
      norm_num
    have hcast : (m : ℚ) = 10 ^ 9 := by exact_mod_cast hfull
    have hhigh : (s * 2 ^ 32 + 2 ^ 32) / 2 ^ 32 = s + 1 := by
      rw [Nat.add_div_right _ (Nat.two_pow_pos 32), Nat.mul_div_cancel _ (Nat.two_pow_pos 32)]
    have hlow : (s * 2 ^ 32 + 2 ^ 32) % 2 ^ 32 = 0 := by
      rw [Nat.add_mod_right, Nat.mul_mod_left]
    have hzero : _erf_ns 0 = 0 := erf_ns_of_frac 0
    rw [hfrac, hhigh, hlow, hzero]
    push_cast
    rw [hcast]
    ring

/-! ## The round trip -/

/-- A packet the format has room for. -/
structure Fits (pkt : Frame) : Prop where
  length_le : pkt.raw.length ≤ 65517
  wirelen_pos : 1 ≤ pkt.wirelen
  wirelen_lt : pkt.wirelen < 2 ^ 16
  time_nonneg : 0 ≤ pkt.time
  time_lt : nanoseconds pkt.time < 2 ^ 32 * 10 ^ 9

/-- The record of a packet. -/
def record (s m : ℕ) (wirelen : ℕ) (raw : Bytes) : Bytes :=
  digits 8 (s * 2 ^ 32 + m * 2 ^ 32 / 10 ^ 9) ++ [2, 0] ++ octets_of 2 (raw.length + 18) ++ [0, 0] ++
    octets_of 2 wirelen ++ [0, 0] ++ raw

/-- A frame that fits is written as one record, with the time in units of 2^-32 seconds cut down
from nanoseconds. -/
theorem Fits.write_packet {pkt : Frame} (h : Fits pkt) :
    ∃ s m : ℕ, m ≤ 10 ^ 9 ∧ s * 2 ^ 32 + m * 2 ^ 32 / 10 ^ 9 < 2 ^ 64 ∧
      (s * 10 ^ 9 + m : ℕ) = nanoseconds pkt.time ∧
      ERFEthernetWriter.write_packet pkt = some (record s m pkt.wirelen pkt.raw) := by
  have hint : int_of pkt.time = ⌊pkt.time⌋ := if_pos h.time_nonneg
  have hlo := Int.floor_le pkt.time
  have hhi := Int.lt_floor_add_one pkt.time
  have hsec : 0 ≤ ⌊pkt.time⌋ := Int.floor_nonneg.2 h.time_nonneg
  obtain ⟨q, hq⟩ : ∃ q, q = (pkt.time - ⌊pkt.time⌋) * 10 ^ 9 := ⟨_, rfl⟩
  have hq0 : 0 ≤ q := by
    rw [hq]
    exact mul_nonneg (by linarith) (by norm_num)
  have hq1 : q < (10 ^ 9 : ℤ) := by
    rw [hq]
    push_cast
    linarith
  have hfloor0 : 0 ≤ ⌊q⌋ := Int.floor_nonneg.2 hq0
  have hfloor1 : ⌊q⌋ < 10 ^ 9 := Int.floor_lt.2 hq1
  have hdown := floor_le_half_even q
  have hup := half_even_le q
  obtain ⟨s, hs⟩ := Int.eq_ofNat_of_zero_le hsec
  obtain ⟨m, hm⟩ := Int.eq_ofNat_of_zero_le (show 0 ≤ half_even q by omega)
  have hns : nanoseconds pkt.time = ((s * 10 ^ 9 + m : ℕ) : ℤ) := by
    unfold nanoseconds
    rw [← hq, hm, hs]
    push_cast
    rfl
  have hmle : m ≤ 10 ^ 9 := by omega
  have hlt := h.time_lt
  rw [hns] at hlt
  have hlen := h.length_le
  have hwire := h.wirelen_pos
  -- nothing is negative here, so Python's integers are these numbers
  have hts : (s : ℤ) * 2 ^ 32 + (m : ℤ) * 2 ^ 32 / 10 ^ 9
      = ((s * 2 ^ 32 + m * 2 ^ 32 / 10 ^ 9 : ℕ) : ℤ) := by
    push_cast
    rfl
  have hstamp : s * 2 ^ 32 + m * 2 ^ 32 / 10 ^ 9 < 2 ^ 64 := by omega
  refine ⟨s, m, hmle, hstamp, hns.symm, ?_⟩
  unfold ERFEthernetWriter.write_packet pack_Q pack_H
  dsimp only
  rw [hint, ← hq, hm, hs]
  rw [hts, if_neg (show ¬ pkt.wirelen = 0 by omega), if_pos (by omega), if_pos (by omega),
    if_pos h.wirelen_lt, Int.toNat_natCast]
  rfl

/-- What the reader gives of a packet. -/
def Frame.read (pkt : Frame) : Bytes × ℚ × ℕ :=
  (pkt.raw, (nanoseconds pkt.time : ℚ) / 10 ^ 9, pkt.wirelen)

/-- Eighteen octets around the data. -/
theorem length_record (s m wirelen : ℕ) (raw : Bytes) :
    (record s m wirelen raw).length = raw.length + 18 := by
  unfold record
  simp only [List.length_append, length_digits, length_octets_of, List.length_cons, List.length_nil]
  omega

/-- Two octets are read behind what precedes them. -/
theorem be16_behind (f : Bytes) {v : ℕ} (hv : v < 2 ^ 16) (g : Bytes) :
    (be16 (f ++ (octets_of 2 v ++ g)) f.length).toNat = v := by
  have hread := be16_octets (UInt16.ofNat v) g
  rw [UInt16.toNat_ofNat_of_lt' hv] at hread
  have hbehind := be16_append_right f (g := octets_of 2 v ++ g) rfl 0
  rw [Nat.add_zero] at hbehind
  rw [hbehind, hread, UInt16.toNat_ofNat_of_lt' hv]

/-- What the reader sees at a record, wherever in a file it is. -/
theorem erf_turn_record {s m wirelen : ℕ} {raw : Bytes} (hm : m ≤ 10 ^ 9)
    (hstamp : s * 2 ^ 32 + m * 2 ^ 32 / 10 ^ 9 < 2 ^ 64) (hlen : raw.length ≤ 65517)
    (hwire : wirelen < 2 ^ 16) (pre rest : Bytes) :
    erf_turn (pre ++ (record s m wirelen raw ++ rest)) pre.length =
      .record (pre.length + 18) (pre.length + 18 + raw.length)
        (((s * 10 ^ 9 + m : ℕ) : ℚ) / 10 ^ 9) wirelen (pre.length + 18 + raw.length) := by
  have hlength := length_record s m wirelen raw
  have hroom : pre.length + 16 ≤ (pre ++ (record s m wirelen raw ++ rest)).length := by
    simp only [List.length_append]
    omega
  have hts : value (slice (pre ++ (record s m wirelen raw ++ rest)) pre.length (pre.length + 8))
      = s * 2 ^ 32 + m * 2 ^ 32 / 10 ^ 9 := by
    rw [slice_append_right pre rfl]
    unfold record
    simp only [List.append_assoc]
    rw [List.take_left' (length_digits 8 _), value_digits_of_lt hstamp]
  -- From here on the header is read field by field, each behind what precedes it.
  have hstampL := length_digits 8 (s * 2 ^ 32 + m * 2 ^ 32 / 10 ^ 9)
  have htype : (pre ++ (record s m wirelen raw ++ rest)).getD (pre.length + 8) 0 = 2 := by
    unfold record
    simp only [List.append_assoc]
    rw [List.getD_eq_getElem?_getD, List.getElem?_append_right (Nat.le_add_right _ _),
      List.getElem?_append_right (by omega), hstampL, Nat.add_sub_cancel_left]
    rfl
  have hrlen : (be16 (pre ++ (record s m wirelen raw ++ rest)) (pre.length + 10)).toNat
      = raw.length + 18 := by
    have hread := be16_behind (pre ++ digits 8 (s * 2 ^ 32 + m * 2 ^ 32 / 10 ^ 9) ++ [2, 0])
      (show raw.length + 18 < 2 ^ 16 by omega)
      ([0, 0] ++ (octets_of 2 wirelen ++ ([0, 0] ++ (raw ++ rest))))
    rw [List.length_append, List.length_append, hstampL] at hread
    unfold record
    simp only [List.append_assoc] at hread ⊢
    exact hread
  have hwlen : (be16 (pre ++ (record s m wirelen raw ++ rest)) (pre.length + 14)).toNat = wirelen := by
    have hread := be16_behind (pre ++ digits 8 (s * 2 ^ 32 + m * 2 ^ 32 / 10 ^ 9) ++ [2, 0] ++
      octets_of 2 (raw.length + 18) ++ [0, 0]) hwire ([0, 0] ++ (raw ++ rest))
    rw [List.length_append, List.length_append, List.length_append, List.length_append, hstampL,
      length_octets_of] at hread
    unfold record
    simp only [List.append_assoc] at hread ⊢
    exact hread
  unfold erf_turn
  rw [if_pos hroom]
  dsimp only
  have hupto : min (pre ++ (record s m wirelen raw ++ rest)).length
      (pre.length + max (raw.length + 18) 16) = pre.length + 18 + raw.length := by
    simp only [List.length_append]
    omega
  have hnext : pre.length + max (raw.length + 18) 16 = pre.length + 18 + raw.length := by omega
  rw [htype, hrlen, hwlen, hts, time_read s m hm]
  rw [if_neg (by decide), if_neg (by decide), hupto, hnext]

/-- A file is its records in a row. -/
theorem write_cons {pkt : Frame} {rest : List Frame} {record file : Bytes}
    (hrecord : ERFEthernetWriter.write_packet pkt = some record)
    (hfile : ERFEthernetWriter.write rest = some file) :
    ERFEthernetWriter.write (pkt :: rest) = some (record ++ file) := by
  show (match ERFEthernetWriter.write_packet pkt, ERFEthernetWriter.write rest with
    | some record, some file => some (record ++ file)
    | _, _ => none) = _
  rw [hrecord, hfile]

/-- The octets a file of packets is read back from, whatever stands before them. -/
theorem erf_index_from_write (pre : Bytes) (pkts : List Frame) (h : ∀ pkt ∈ pkts, Fits pkt) :
    ∃ file, ERFEthernetWriter.write pkts = some file ∧
      erf_index_from (pre ++ file) pre.length = some (pkts.map Frame.read) := by
  induction pkts generalizing pre with
  | nil =>
    refine ⟨[], rfl, ?_⟩
    have hend : erf_turn (pre ++ []) pre.length = .ended := by
      unfold erf_turn
      rw [List.append_nil, if_neg (by omega)]
    rw [erf_index_from_eq, hend]
    rfl
  | cons pkt rest ih =>
    have hpkt := h pkt List.mem_cons_self
    obtain ⟨s, m, hm, hstamp, hns, hwrite⟩ := hpkt.write_packet
    have hlength := length_record s m pkt.wirelen pkt.raw
    obtain ⟨file, hfile, hread⟩ := ih (pre ++ record s m pkt.wirelen pkt.raw)
      fun other hmem => h other (List.mem_cons_of_mem _ hmem)
    refine ⟨record s m pkt.wirelen pkt.raw ++ file, ?_, ?_⟩
    · exact write_cons hwrite hfile
    · have hturn := erf_turn_record hm hstamp hpkt.length_le hpkt.wirelen_lt pre file
      have hnext : pre.length + 18 + pkt.raw.length = (pre ++ record s m pkt.wirelen pkt.raw).length := by
        rw [List.length_append, hlength]
        omega
      -- the frame starts behind the header and its two octets of padding
      have hframe : slice (pre ++ (record s m pkt.wirelen pkt.raw ++ file)) (pre.length + 18)
          (pre.length + 18 + pkt.raw.length) = pkt.raw := by
        obtain ⟨header, hheader⟩ : ∃ header, header =
            pre ++ (digits 8 (s * 2 ^ 32 + m * 2 ^ 32 / 10 ^ 9) ++ [2, 0] ++
              octets_of 2 (pkt.raw.length + 18) ++ [0, 0] ++ octets_of 2 pkt.wirelen ++ [0, 0]) :=
          ⟨_, rfl⟩
        have hhead : pre.length + 18 = header.length := by
          rw [hheader]
          simp only [List.length_append, length_digits, length_octets_of, List.length_cons,
            List.length_nil]
        have hsplit : pre ++ (record s m pkt.wirelen pkt.raw ++ file) = header ++ (pkt.raw ++ file) := by
          rw [hheader]
          unfold record
          simp only [List.append_assoc]
        rw [hsplit, slice_append_right header hhead, List.take_left]
      have htime : ((s * 10 ^ 9 + m : ℕ) : ℚ) = nanoseconds pkt.time := by exact_mod_cast hns
      rw [erf_index_from_eq, hturn]
      dsimp only
      rw [hframe, hnext, ← List.append_assoc, hread, htime]
      rfl

/-- Whatever the octets, a frame is a part of them and has taken sixteen of them for its header. -/
theorem erf_index_from_inside {data : Bytes} {at_ : ℕ} {frames : List (Bytes × ℚ × ℕ)}
    (h : erf_index_from data at_ = some frames) :
    16 * frames.length ≤ data.length - at_ ∧
      ∀ frame ∈ frames, ∃ a b, b ≤ data.length ∧ frame.1 = slice data a b := by
  -- Record by record: each turn moves at least the sixteen octets of a header.
  induction at_ using erf_index_from.induct data generalizing frames with
  | case1 at_ hend =>
    rw [erf_index_from_eq, hend] at h
    cases h
    exact ⟨Nat.zero_le _, fun frame hmem => absurd hmem List.not_mem_nil⟩
  | case2 at_ hbad =>
    rw [erf_index_from_eq, hbad] at h
    cases h
  | case3 at_ from_ upto time wlen next hturn ih =>
    obtain ⟨hnext, hroom, -, hupto⟩ := erf_turn_advances hturn
    rw [erf_index_from_eq, hturn] at h
    dsimp only at h
    rw [Option.map_eq_some_iff] at h
    obtain ⟨rest, hrest, hframes⟩ := h
    obtain ⟨hcount, hinside⟩ := ih hrest
    rw [← hframes]
    constructor
    · rw [List.length_cons]
      omega
    · intro frame hmem
      rcases List.mem_cons.1 hmem with hfirst | hmem
      · exact ⟨from_, upto, hupto, by rw [hfirst]⟩
      · exact hinside frame hmem

/-- **A file of packets is read back.** Each comes with its octets, its wire length and the time it
was written as, which is its own where that is a whole number of nanoseconds; and whatever octets
the reader is given, it goes on by sixteen at least and gives nothing that is not a part of them. -/
theorem erf_round_trip :
    (∀ pkts : List Frame, (∀ pkt ∈ pkts, Fits pkt) →
      ∃ file, ERFEthernetWriter.write pkts = some file ∧
        _erf_index file = some (pkts.map Frame.read)) ∧
    (∀ (pkt : Frame) (n : ℕ), pkt.time = n / 10 ^ 9 →
      pkt.read = (pkt.raw, pkt.time, pkt.wirelen)) ∧
    (∀ (data : Bytes) (at_ from_ upto wlen next : ℕ) (time : ℚ),
      erf_turn data at_ = .record from_ upto time wlen next →
        at_ + 16 ≤ next ∧ upto ≤ data.length) ∧
    ∀ (data : Bytes) (frames : List (Bytes × ℚ × ℕ)), _erf_index data = some frames →
      16 * frames.length ≤ data.length ∧
        ∀ frame ∈ frames, ∃ a b, b ≤ data.length ∧ frame.1 = slice data a b := by
  refine ⟨?_, ?_, ?_, ?_⟩
  · intro pkts h
    obtain ⟨file, hfile, hread⟩ := erf_index_from_write [] pkts h
    exact ⟨file, hfile, hread⟩
  · intro pkt n htime
    unfold Frame.read
    rw [htime, nanoseconds_exact]
    rfl
  -- a turn of the walk moves on and stays inside
  · intro data at_ from_ upto wlen next time hturn
    obtain ⟨hnext, -, -, hupto⟩ := erf_turn_advances hturn
    exact ⟨hnext, hupto⟩
  · intro data frames h
    exact erf_index_from_inside h

/-- Two packets, the second of them less than half a nanosecond before its second. -/
theorem erf_round_trip_carried :
    ∃ file, ERFEthernetWriter.write [⟨[1, 2, 3], 1 / 2, 60⟩, ⟨[], 19999999996 / 10 ^ 10, 1⟩]
        = some file ∧
      _erf_index file = some [([1, 2, 3], 1 / 2, 60), ([], 2, 1)] := by
  have hhalf : nanoseconds (1 / 2) = 500000000 := by
    have hexact := nanoseconds_exact 500000000
    norm_num at hexact ⊢
    exact hexact
  -- the second time rounds up into the next second
  have hfloor : ⌊(19999999996 / 10 ^ 10 : ℚ)⌋ = 1 := by norm_num [Int.floor_eq_iff]
  have hpart : ⌊(19999999992 / 20 : ℚ)⌋ = 999999999 := by norm_num [Int.floor_eq_iff]
  have hcarry : nanoseconds (19999999996 / 10 ^ 10) = 2000000000 := by
    unfold nanoseconds half_even
    have hscaled : ((19999999996 / 10 ^ 10 : ℚ) - (1 : ℤ)) * 10 ^ 9 = 19999999992 / 20 := by norm_num
    rw [hfloor, hscaled, hpart]
    norm_num
  obtain ⟨file, hfile, hread⟩ :=
    erf_round_trip.1 [⟨[1, 2, 3], 1 / 2, 60⟩, ⟨[], 19999999996 / 10 ^ 10, 1⟩] (by
      intro pkt hmem
      rcases List.mem_cons.1 hmem with hpkt | hmem
      · rw [hpkt]
        exact ⟨by decide, by decide, by decide, by norm_num, by rw [hhalf]; decide⟩
      · rw [List.mem_singleton.1 hmem]
        exact ⟨by decide, by decide, by decide, by norm_num, by rw [hcarry]; decide⟩)
  refine ⟨file, hfile, ?_⟩
  rw [hread]
  unfold Frame.read
  simp only [List.map_cons, List.map_nil, hhalf, hcarry]
  norm_num

end Wiry.Pcapio
