/-
Simple Packet Blocks of `crates/wiry-core/src/pcapng.rs`: a block that gives the
length a packet had on the wire but not how much of it was captured. That is for
the section's first interface to say, by its snap length; what the block holds
beyond it is padding.

`next_record` takes whatever fits in the block, so it reads padding as packet
data where the snap length cut the packet short and not at a whole word.
-/
import Wiry.Capture.Sections

set_option autoImplicit false

namespace Wiry.Capture.Pcapng

open Packet

/-- The snap length an interface block declares: `linktype(2) reserved(2) snaplen(4)`. -/
def Block.snaplen (swapped : Bool) (b : Block) : Option UInt32 := rd32 b.body 4 swapped

/-- The length on the wire, the first word of a simple packet block. -/
def Block.origlen (swapped : Bool) (b : Block) : Option UInt32 := rd32 b.body 0 swapped

/-- What follows it: the captured octets, then padding. -/
def Block.area (b : Block) : Bytes := b.body.drop 4

/-- The snap length of a section's first interface, none where it describes no interface. -/
def Section.snaplen (s : Section) : UInt32 :=
  ((s.blocks.find? fun b => b.btype = BLOCK_IDB).bind (Block.snaplen s.swapped)).getD 0

/-- How many octets of a packet of length `n` an interface of snap length `l` captures, 0 being
no limit. -/
def captured (n l : UInt32) : ℕ := if l = 0 then n.toNat else min n.toNat l.toNat

/-- What `next_record` makes of a simple packet block. -/
def Block.simple (b : Block) (n : UInt32) : Record where
  ts_sec := 0
  ts_frac := 0
  caplen := UInt32.ofNat (min n.toNat b.area.length)
  origlen := n
  data := b.area.take (min n.toNat b.area.length)

/-- The body of a block, found in the block. -/
theorem Block.slice_body {swapped : Bool} {b : Block} {o k : ℕ} (h : o + k ≤ b.body.length) :
    slice_checked (b.encode swapped) (8 + o) (8 + o + k) = some ((b.body.drop o).take k) := by
  have hwithin := slice_checked_within
    (word32 swapped b.btype ++ word32 swapped (UInt32.ofNat (12 + b.body.length)))
    (word32 swapped (UInt32.ofNat (12 + b.body.length)))
    (show o ≤ o + k from Nat.le_add_right o k) h
  rw [List.length_append, length_word32, length_word32, ← Nat.add_assoc,
    slice_checked_eq (Nat.le_add_right o k) h] at hwithin
  refine (show slice_checked (b.encode swapped) (8 + o) (8 + o + k) = _ from hwithin).trans ?_
  apply congrArg some
  rw [slice, Nat.add_comm o k, List.drop_take, Nat.add_sub_cancel]

/-- A simple packet block yields its record whatever interfaces there are. -/
theorem Block.read_simple_packet {swapped : Bool} {b : Block} (ifaces : List Iface) {n : UInt32}
    (htype : b.btype = BLOCK_SPB) (horig : b.origlen swapped = some n) :
    b.read swapped ifaces = .yield (b.simple n) := by
  have hbody : 4 ≤ b.body.length := by
    have hin := rd32_in horig
    omega
  have harea : b.area.length = b.body.length - 4 := List.length_drop
  have hword : rd32 (b.encode swapped) (0 + 8) swapped = some n :=
    (rd32_body (show 0 + 4 ≤ b.body.length by omega)).trans horig
  have htotal : (b.encode swapped).length - 16 = b.area.length := by
    rw [length_encode]
    omega
  have hdata := @Block.slice_body swapped b 4 (min n.toNat b.area.length) (by omega)
  have hspb : ¬(b.btype = BLOCK_EPB ∨ b.btype = BLOCK_PB) := by
    rw [htype]
    decide
  have hidb : ¬b.btype = BLOCK_IDB := by
    rw [htype]
    decide
  unfold Block.read block_at simple_at
  rw [if_neg hidb, if_neg hspb, if_pos htype, if_neg (by rw [length_encode]; omega), hword]
  dsimp only
  rw [htotal, Nat.zero_add, hdata]
  rfl

/-- The interfaces described once a run of blocks is behind. -/
def ifaces_after (swapped : Bool) : List Iface → List Block → List Iface
  | ifaces, [] => ifaces
  | ifaces, b :: rest =>
    match b.read swapped ifaces with
    | .stop => ifaces
    | .skip ifaces => ifaces_after swapped ifaces rest
    | .yield _ => ifaces_after swapped ifaces rest

/-- Well-formed blocks are read one run after the other. -/
theorem read_blocks_append {swapped : Bool} {front : List Block}
    (hwf : ∀ b ∈ front, b.WellFormed swapped) (ifaces : List Iface) (back : List Block) :
    read_blocks swapped ifaces (front ++ back) =
      read_blocks swapped ifaces front ++
        read_blocks swapped (ifaces_after swapped ifaces front) back := by
  induction front generalizing ifaces with
  | nil => rfl
  | cons b front ih =>
    have hlater : ∀ b' ∈ front, b'.WellFormed swapped :=
      fun b' hb' => hwf b' (List.mem_cons_of_mem b hb')
    rw [List.cons_append, read_blocks, read_blocks, ifaces_after]
    cases hread : b.read swapped ifaces with
    | stop => exact absurd hread ((hwf b List.mem_cons_self).not_stop ifaces)
    | skip ifaces' => exact ih hlater ifaces'
    | yield rec =>
      dsimp only
      rw [ih hlater ifaces, List.cons_append]

/-- What the block has room for is what the interface captures. -/
theorem min_area_iff {n l : UInt32} {a : ℕ} (h : captured n l ≤ a) :
    min n.toNat a = captured n l ↔ l = 0 ∨ n.toNat ≤ l.toNat ∨ a = l.toNat := by
  have hzero : l = 0 ↔ l.toNat = 0 := by
    rw [← UInt32.toNat_inj]
    rfl
  unfold captured at h ⊢
  by_cases hl : l = 0
  · rw [if_pos hl] at h ⊢
    simp only [hl, true_or, iff_true]
    omega
  · rw [if_neg hl] at h ⊢
    simp only [hl, false_or]
    omega

/-- Behind sections that declare no length a section is reached. -/
theorem reached_behind {before : List Section} {s : Section} (after : List Section)
    (hreach : ∀ p ∈ before, p.declares = false) :
    ∃ more, reached (before ++ s :: after) = before ++ s :: more := by
  induction before with
  | nil =>
    rw [List.nil_append, reached]
    split
    · exact ⟨[], rfl⟩
    · exact ⟨reached after, rfl⟩
  | cons p before ih =>
    obtain ⟨more, hmore⟩ := ih fun q hq => hreach q (List.mem_cons_of_mem p hq)
    refine ⟨more, ?_⟩
    rw [List.cons_append, reached, hreach p List.mem_cons_self, hmore]
    rfl

/-- The records of a section around one of its Simple Packet Blocks. -/
theorem Section.records_simple (s : Section) {front back : List Block} {b : Block}
    (hblocks : s.blocks = front ++ b :: back) (htype : b.btype = BLOCK_SPB) {n : UInt32}
    (horig : b.origlen s.swapped = some n) :
    s.records = read_blocks s.swapped [] front ++ b.simple n ::
      read_blocks s.swapped (ifaces_after s.swapped [] front) back := by
  have hwf : ∀ b' ∈ front, b'.WellFormed s.swapped := by
    intro b' hb'
    apply s.well_formed
    rw [hblocks]
    exact List.mem_append_left _ hb'
  rw [Section.records, hblocks, read_blocks_append hwf, read_blocks,
    Block.read_simple_packet _ htype horig]

/-- **The record of a simple packet block carries the captured octets and no padding exactly where
the packet was not cut short, or was cut at the end of the block.** The block lies behind `front`
in a section the walk of the file gets to, and holds the octets captured. -/
theorem simple_packet_captured_iff (before after : List Section) (s : Section)
    (hreach : ∀ p ∈ before, p.declares = false)
    {front back : List Block} {b : Block} (hblocks : s.blocks = front ++ b :: back)
    (htype : b.btype = BLOCK_SPB) {n : UInt32} (horig : b.origlen s.swapped = some n)
    (hheld : captured n s.snaplen ≤ b.area.length) :
    ∃ rec rest, records ((before ++ s :: after).flatMap Section.encode) =
        before.flatMap Section.records ++ read_blocks s.swapped [] front ++ rec :: rest ∧
      ((rec.origlen = n ∧ rec.caplen.toNat = captured n s.snaplen ∧
          rec.data = b.area.take (captured n s.snaplen)) ↔
        s.snaplen = 0 ∨ n.toNat ≤ s.snaplen.toNat ∨ b.area.length = s.snaplen.toNat) := by
  obtain ⟨more, hmore⟩ := reached_behind (s := s) after hreach
  have hsection := s.records_simple hblocks htype horig
  refine ⟨b.simple n, read_blocks s.swapped (ifaces_after s.swapped [] front) back ++
    more.flatMap Section.records, ?_, ?_⟩
  -- The record stands where its block does among those of its section.
  · rw [records_file, hmore, List.flatMap_append, List.flatMap_cons, hsection]
    simp only [List.append_assoc, List.cons_append]
  -- The stored count is cut to the area; the two counts meet in just the three cases.
  · rw [← min_area_iff hheld]
    have hfit : min n.toNat b.area.length < 2 ^ 32 :=
      Nat.lt_of_le_of_lt (Nat.min_le_left _ _) n.toNat_lt
    have hcap : (b.simple n).caplen.toNat = min n.toNat b.area.length :=
      (UInt32.toNat_ofNat').trans (Nat.mod_eq_of_lt hfit)
    constructor
    · rintro ⟨-, hlen, -⟩
      rw [← hcap, hlen]
    · intro hmin
      refine ⟨rfl, hcap.trans hmin, ?_⟩
      rw [← hmin]
      rfl

/-- An interface that captures five octets of a packet. -/
def short_idb : Block where
  btype := BLOCK_IDB
  body := [1, 0, 0, 0, 5, 0, 0, 0]
  aligned := rfl
  small := by decide

/-- Five octets of a packet of a hundred, and three of padding. -/
def short_spb : Block where
  btype := BLOCK_SPB
  body := [100, 0, 0, 0, 1, 2, 3, 4, 5, 0, 0, 0]
  aligned := rfl
  small := by decide

/-- A section of both. -/
def short_section : Section where
  swapped := false
  declares := false
  version := [1, 0, 0, 0]
  options := []
  blocks := [short_idb, short_spb]
  length_version := length_version_one
  aligned := no_options_aligned
  small := no_options_small
  well_formed := by
    have hidb : short_idb.WellFormed false :=
      ⟨by decide, fun h => absurd h (by decide), fun h => absurd h (by decide)⟩
    have hspb : short_spb.WellFormed false :=
      ⟨by decide, fun h => absurd h (by decide), fun _ => by decide⟩
    exact List.forall_mem_cons.2 ⟨hidb, List.forall_mem_cons.2 ⟨hspb, nofun⟩⟩
  extent_lt h := absurd h Bool.false_ne_true

theorem simple_packet_captured_short :
    ∃ rec rest, records ([short_section].flatMap Section.encode) = [] ++ rec :: rest ∧
      ((rec.origlen = 100 ∧ rec.caplen.toNat = 5 ∧ rec.data = [1, 2, 3, 4, 5]) ↔
        (5 : UInt32) = 0 ∨ 100 ≤ 5 ∨ 8 = 5) :=
  simple_packet_captured_iff [] [] short_section nofun
    (show short_section.blocks = [short_idb] ++ short_spb :: [] from rfl) rfl
    (show short_spb.origlen false = some 100 by decide) (by decide)

/-- **The three octets of padding come back as packet data.** -/
theorem simple_packet_reads_padding :
    short_section.snaplen = 5 ∧ captured 100 5 = 5 ∧
      (records short_section.encode).map Record.data = [[1, 2, 3, 4, 5, 0, 0, 0]] := by
  refine ⟨by decide, rfl, ?_⟩
  rw [records_encode]
  decide +kernel

end Wiry.Capture.Pcapng
