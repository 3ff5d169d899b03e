/-
One direction of a TCP stream as it is handed back: `Seg`, `Gap` and `Half` of
`crates/wiry-core/src/stream.rs`, with the bounds the reassembler works inside.

The reassembler moves octets and never looks at one, so the octet type is a
parameter `α` of everything here; the framing and dissection layers use it at
`UInt8`. Offsets into `data` are `u32` in the source and natural numbers here:
`MAX_STREAM` keeps them below `2 ^ 24`, so no conversion ever loses a bit.
-/
import Wiry.Lib.Holes
import Mathlib.Data.UInt

set_option autoImplicit false

namespace Wiry.Stream

/-! ## The bounds -/

/-- Concurrent streams tracked at once. -/
def MAX_STREAMS : ℕ := 65536

/-- Delivered octets one direction may reassemble to. -/
def MAX_STREAM : ℕ := 16 <<< 20

/-- Out-of-order segments one direction may hold behind a gap. -/
def MAX_HELD_SEGS : ℕ := 64

/-- Octets one direction may hold behind a gap. -/
def MAX_HELD_BYTES : ℕ := 256 <<< 10

/-- Octets held behind gaps across every direction at once. -/
def MAX_HELD_TOTAL : ℕ := 32 <<< 20

/-- How far past the frontier a segment may claim. -/
def MAX_AHEAD : ℕ := 1 <<< 20

/-- Segments a direction may hold before its origin is fixed. -/
def ORIGIN_WINDOW : ℕ := 8

def SAW_SYN : UInt8 := 1
def SAW_FIN : UInt8 := 2
def SAW_RST : UInt8 := 4

/-- Octets were refused by a bound. -/
def LOSSY : UInt8 := 8

/-- The direction reached `MAX_STREAM` and stopped accepting. -/
def TRUNCATED : UInt8 := 16

/-! The control bits of a TCP header that the reassembler reads. -/

def FIN : UInt8 := 0x01
def SYN : UInt8 := 0x02
def RST : UInt8 := 0x04
def ACK : UInt8 := 0x10

/-! ## A reassembled direction -/

/-- Where one packet's octets landed in the reassembled direction. -/
structure Seg where
  at_ : ℕ
  len : ℕ
  pkt : ℕ
deriving DecidableEq, Repr

/-- Octets that never arrived, at the offset in `data` where they would have been. -/
structure Gap where
  at_ : ℕ
  len : ℕ
deriving DecidableEq, Repr

/-- One direction of one stream, as it is handed back. -/
@[ext] structure Half (α : Type) where
  data : List α := []
  segs : List Seg := []
  gaps : List Gap := []
  flags : UInt8 := 0
  dropped : ℕ := 0
deriving DecidableEq, Repr

namespace Half

variable {α : Type}

/-- `partition_point`: how many leading segments satisfy `p`. The source searches
by bisection, on lists whose satisfying segments all come first. -/
def partition_point (segs : List Seg) (p : Seg → Bool) : ℕ := (segs.takeWhile p).length

/-- The segment the octet at `off` came from. -/
def seg_at (h : Half α) (off : ℕ) : Option Seg :=
  match partition_point h.segs fun s => s.at_ ≤ off with
  | 0 => none
  | i + 1 => h.segs[i]?.filter fun s => off < s.at_ + s.len

/-- The packet the octet at `off` came from. -/
def packet_at (h : Half α) (off : ℕ) : Option ℕ := (h.seg_at off).map Seg.pkt

/-- The segments overlapping `[at_, at_ + len)`. -/
def segs_in (h : Half α) (at_ len : ℕ) : List Seg :=
  let end_ := min (at_ + len) (2 ^ 32 - 1)
  let lo := partition_point h.segs fun s => s.at_ + s.len ≤ at_
  let hi := partition_point h.segs fun s => s.at_ < end_
  (h.segs.take hi).drop lo

/-- The octets recorded as missing at or before offset `o`. -/
def missing (h : Half α) (o : ℕ) : ℕ := Holes.skipped Gap.at_ Gap.len h.gaps o

/-- The octets recorded as missing. -/
def missingTotal (h : Half α) : ℕ := Holes.size Gap.len h.gaps

/-! ## Segments that tile the data -/

/-- `segs` cover `[a, n)` end to end, none of them empty. -/
def Tiles : ℕ → List Seg → ℕ → Prop
  | a, [], n => a = n
  | a, s :: rest, n => s.at_ = a ∧ 0 < s.len ∧ Tiles (a + s.len) rest n

/-- The packet of each octet, in order. -/
def pkts (segs : List Seg) : List ℕ := segs.flatMap fun s => List.replicate s.len s.pkt

/-- Each octet of the data with the packet named for it. -/
def octets (h : Half α) : List (α × ℕ) := h.data.zip (pkts h.segs)

/-- Tilings in a row. -/
theorem Tiles.append {a m n : ℕ} {segs rest : List Seg} (h : Tiles a segs m)
    (hrest : Tiles m rest n) : Tiles a (segs ++ rest) n := by
  induction segs generalizing a with
  | nil =>
    obtain rfl : a = m := h
    exact hrest
  | cons s segs ih => exact ⟨h.1, h.2.1, ih h.2.2⟩

/-- And taken apart. -/
theorem Tiles.of_append {a n : ℕ} {segs rest : List Seg} (h : Tiles a (segs ++ rest) n) :
    ∃ m, Tiles a segs m ∧ Tiles m rest n := by
  induction segs generalizing a with
  | nil => exact ⟨a, rfl, h⟩
  | cons s segs ih =>
    obtain ⟨m, hm, hr⟩ := ih h.2.2
    exact ⟨m, ⟨h.1, h.2.1, hm⟩, hr⟩

/-- The last of the segments that tile `[a, n)` ends at `n`. -/
theorem Tiles.last {a n : ℕ} {segs : List Seg} {s : Seg} (h : Tiles a (segs ++ [s]) n) :
    Tiles a segs s.at_ ∧ s.at_ + s.len = n := by
  obtain ⟨m, hm, hs, -, hend⟩ := h.of_append
  obtain rfl : s.at_ = m := hs
  exact ⟨hm, hend⟩

@[simp] theorem pkts_append (segs rest : List Seg) : pkts (segs ++ rest) = pkts segs ++ pkts rest := by
  simp [pkts]

@[simp] theorem pkts_nil : pkts [] = [] := rfl

@[simp] theorem pkts_cons (s : Seg) (rest : List Seg) :
    pkts (s :: rest) = List.replicate s.len s.pkt ++ pkts rest := by
  simp [pkts]

/-- One packet for each octet. -/
theorem Tiles.length_pkts {a n : ℕ} {segs : List Seg} (h : Tiles a segs n) :
    a + (pkts segs).length = n := by
  induction segs generalizing a with
  | nil => exact h
  | cons s rest ih =>
    have hr : a + s.len + (pkts rest).length = n := ih h.2.2
    rw [pkts_cons, List.length_append, List.length_replicate]
    omega

/-- The offset just past a tile is where the next one starts, so a tile that starts at or
before an offset and is followed by one that starts after it holds the offset. -/
theorem Tiles.exists_seg {a n : ℕ} {segs : List Seg} (h : Tiles a segs n) {o : ℕ} (ha : a ≤ o)
    (hn : o < n) :
    ∃ pre s post, segs = pre ++ s :: post ∧ s.at_ ≤ o ∧ o < s.at_ + s.len ∧
      (∀ t ∈ pre, t.at_ + t.len ≤ s.at_) ∧ ∀ t ∈ post, s.at_ + s.len ≤ t.at_ := by
  -- By the segments; the offset lies in the first one or behind it.
  induction segs generalizing a with
  | nil =>
    obtain rfl : a = n := h
    omega
  | cons s rest ih =>
    obtain ⟨hs, hpos, hr⟩ := h
    have hge : ∀ (b : ℕ) (l : List Seg), Tiles b l n → ∀ t ∈ l, b ≤ t.at_ := by
      intro b l hl
      induction l generalizing b with
      | nil => simp
      | cons u l ihl =>
        intro t ht
        rcases List.mem_cons.1 ht with rfl | ht
        · exact hl.1.ge
        · have := ihl _ hl.2.2 t ht
          omega
    rcases Nat.lt_or_ge o (a + s.len) with hin | hpast
    · refine ⟨[], s, rest, rfl, by omega, by omega, by simp, fun t ht => ?_⟩
      have := hge _ rest hr t ht
      omega
    · obtain ⟨pre, t, post, rfl, hto, hot, hpre, hpost⟩ := ih hr hpast
      refine ⟨s :: pre, t, post, rfl, hto, hot, ?_, hpost⟩
      intro u hu
      rcases List.mem_cons.1 hu with rfl | hu
      · have := hge _ (pre ++ t :: post) hr t (by simp)
        omega
      · exact hpre u hu

/-- On tiles, `seg_at` finds the one tile that holds the offset. -/
theorem seg_at_of_tiles {h : Half α} {n : ℕ} (ht : Tiles 0 h.segs n) {o : ℕ} (ho : o < n) :
    ∃ pre s post, h.segs = pre ++ s :: post ∧ h.seg_at o = some s ∧ s.at_ ≤ o ∧
      o < s.at_ + s.len := by
  obtain ⟨pre, s, post, hsegs, hso, hos, hpre, hpost⟩ := ht.exists_seg (Nat.zero_le o) ho
  refine ⟨pre, s, post, hsegs, ?_, hso, hos⟩
  have hwhile : h.segs.takeWhile (fun t => t.at_ ≤ o) = pre ++ [s] := by
    rw [hsegs, List.takeWhile_append_of_pos]
    · rw [List.takeWhile_cons_of_pos (by simpa using hso)]
      cases post with
      | nil => rfl
      | cons t post =>
        have := hpost t List.mem_cons_self
        rw [List.takeWhile_cons_of_neg (by simp; omega)]
    · intro t ht
      have := hpre t ht
      simp only [decide_eq_true_eq]
      omega
  have hpt : partition_point h.segs (fun t => t.at_ ≤ o) = pre.length + 1 := by
    rw [partition_point, hwhile, List.length_append, List.length_singleton]
  have hget : h.segs[pre.length]? = some s := by simp [hsegs]
  rw [seg_at, hpt]
  simp only [hget, Option.filter_some, decide_eq_true_eq, hos, ↓reduceIte]

/-- The octet at `o` is named for the packet of the tile that holds it. -/
theorem pkts_getElem_of_tiles {segs pre post : List Seg} {s : Seg} {n o : ℕ}
    (ht : Tiles 0 segs n) (hsegs : segs = pre ++ s :: post) (hso : s.at_ ≤ o)
    (hos : o < s.at_ + s.len) : (pkts segs)[o]? = some s.pkt := by
  subst hsegs
  obtain ⟨m, hpre, hs, -, -⟩ := ht.of_append
  obtain rfl : s.at_ = m := hs
  have hlen : (pkts pre).length = s.at_ := by
    have := hpre.length_pkts
    omega
  rw [pkts_append, pkts_cons, List.getElem?_append_right (by omega),
    List.getElem?_append_left (by simp only [List.length_replicate]; omega),
    List.getElem?_replicate]
  simp only [hlen]
  rw [if_pos (by omega)]

end Half

end Wiry.Stream
