/-
`crates/wiry-core/src/pcapng.rs`: a file of sections, each a run of blocks in
its own byte order, and the reader that walks them.

`step` is one pass of the loop in `next_record`. It either stops, goes on or
yields a record, and it always gets further into the file, so the walk ends.
-/
import Wiry.Capture.Pcap

set_option autoImplicit false

namespace Wiry.Capture.Pcapng

open Packet Endian

/-- A palindrome, so it reads the same in either byte order. -/
def BLOCK_SHB : UInt32 := 0x0A0D0D0A

def BLOCK_IDB : UInt32 := 1

/-- Obsolete: an EPB whose interface id is 16 bits wide and followed by a drop count. -/
def BLOCK_PB : UInt32 := 2

def BLOCK_SPB : UInt32 := 3

def BLOCK_EPB : UInt32 := 6

def BYTE_ORDER_MAGIC : UInt32 := 0x1A2B3C4D

def OPT_IF_TSRESOL : UInt16 := 9

def OPT_END : UInt16 := 0

def DEFAULT_TSRESOL : ℕ := 1000000

inductive PcapngError where
  | TooShort
  | NotPcapng (t : UInt32)
  | BadByteOrder (m : UInt32)
  | BadSectionHeader
deriving DecidableEq, Repr

structure FileHeader where
  swapped : Bool
  linktype : UInt32
  /-- Ticks per second, from `if_tsresol`. -/
  tsresol : ℕ
deriving DecidableEq, Repr

/-- Whether `ts_frac` carries nanoseconds rather than microseconds. -/
def FileHeader.nanos (h : FileHeader) : Bool := h.tsresol == 1000000000

structure Iface where
  linktype : UInt32
  tsresol : ℕ
deriving DecidableEq, Repr

/-- `pad4`: `(n + 3) & !3`. -/
def pad4 (n : ℕ) : ℕ := (n + 3) / 4 * 4

/-- `decode_tsresol`: an exponent that overflows 64 bits falls back to microseconds. -/
def decode_tsresol (v : UInt8) : ℕ :=
  let ticks := if v &&& 0x80 ≠ 0 then 2 ^ (v &&& 0x7f).toNat else 10 ^ v.toNat
  if ticks < 2 ^ 64 then ticks else DEFAULT_TSRESOL

/-! ## One block -/

/-- `read_block_at`: the block type and its extent. A trailing copy of the length that disagrees
stops the walk. -/
def read_block_at (buf : Bytes) (swapped : Bool) (end_ off : ℕ) : Option (UInt32 × ℕ) :=
  if off + 12 > end_ then none
  else
    match rd32 buf off swapped, rd32 buf (off + 4) swapped with
    | some btype, some declared =>
      let total := pad4 declared.toNat
      if declared.toNat < 12 ∨ off + total > end_ then none
      else
        match rd32 buf (off + total - 4) swapped with
        | some trailing => if trailing = declared then some (btype, total) else none
        | none => none
    | _, _ => none

/-- The options of an interface block, `n` turns of the loop from `o` on. -/
def idb_options (buf : Bytes) (swapped : Bool) (body_end : ℕ) : ℕ → ℕ → ℕ → ℕ
  | 0, _, tsresol => tsresol
  | n + 1, o, tsresol =>
    if o + 4 ≤ body_end then
      match rd16 buf o swapped, rd16 buf (o + 2) swapped with
      | some code, some len =>
        if code = OPT_END then tsresol
        else if o + 4 + len.toNat > body_end then tsresol
        else
          let tsresol :=
            if code = OPT_IF_TSRESOL ∧ 1 ≤ len.toNat then
              (buf[o + 4]?.map decode_tsresol).getD tsresol
            else tsresol
          idb_options buf swapped body_end n (o + 4 + pad4 len.toNat) tsresol
      | _, _ => tsresol
    else tsresol

/-- `parse_idb`: a turn of the options takes four octets at least, so the block's extent bounds
them. -/
def parse_idb (buf : Bytes) (swapped : Bool) (off total : ℕ) : Iface where
  linktype := ((rd16 buf (off + 8) swapped).getD 0).toUInt32
  tsresol := idb_options buf swapped (off + total - 4) total (off + 16) DEFAULT_TSRESOL

/-- `tsresol_for`. -/
def tsresol_for (ifaces : List Iface) (header : FileHeader) (iface_id : ℕ) : ℕ :=
  (ifaces[iface_id]?.map Iface.tsresol).getD header.tsresol

/-- `split_ts`: nanoseconds at exactly 10^-9 resolution and microseconds at any other. -/
def split_ts (ticks tsresol : ℕ) : UInt32 × UInt32 :=
  if tsresol = 0 then (0, 0)
  else
    let secs := ticks / tsresol
    let rem := ticks % tsresol
    let frac := if tsresol = 1000000000 then rem else rem * 1000000 / tsresol
    (UInt32.ofNat secs, UInt32.ofNat frac)

/-- What a block that was read does to the walk. -/
inductive Pass where
  | stop
  | skip (ifaces : List Iface)
  | yield (rec : Record)
deriving DecidableEq, Repr

/-- The packet of an EPB, or of a PB with its narrower interface id. -/
def packet_at (buf : Bytes) (swapped : Bool) (ifaces : List Iface) (header : FileHeader)
    (btype : UInt32) (start total : ℕ) : Pass :=
  if total < 32 then .stop
  else
    let id := if btype = BLOCK_PB then (rd16 buf (start + 8) swapped).map UInt16.toUInt32
      else rd32 buf (start + 8) swapped
    match id with
    | none => .stop
    | some iface_id =>
      -- without an IDB for this id the frame has no link type
      if ifaces[iface_id.toNat]? = none then .skip ifaces
      else
        match rd32 buf (start + 12) swapped, rd32 buf (start + 16) swapped,
          rd32 buf (start + 20) swapped, rd32 buf (start + 24) swapped with
        | some hi, some lo, some caplen, some origlen =>
          let n := caplen.toNat
          if pad4 n > total - 32 then .stop
          else
            match slice_checked buf (start + 28) (start + 28 + n) with
            | none => .stop
            | some data =>
              let ticks := (hi.toUInt64 <<< 32 ||| lo.toUInt64).toNat
              let ts := split_ts ticks (tsresol_for ifaces header iface_id.toNat)
              .yield { ts_sec := ts.1, ts_frac := ts.2, caplen, origlen, data }
        | _, _, _, _ => .stop

/-- The packet of an SPB: the octets present are whatever fits in the block, capped at the original
length. -/
def simple_at (buf : Bytes) (swapped : Bool) (start total : ℕ) : Pass :=
  if total < 16 then .stop
  else
    match rd32 buf (start + 8) swapped with
    | none => .stop
    | some origlen =>
      let n := min origlen.toNat (total - 16)
      match slice_checked buf (start + 12) (start + 12 + n) with
      | none => .stop
      | some data =>
        .yield { ts_sec := 0, ts_frac := 0, caplen := UInt32.ofNat n, origlen, data }

/-- The `match` of `next_record` on a block's type. -/
def block_at (buf : Bytes) (swapped : Bool) (ifaces : List Iface) (header : FileHeader)
    (btype : UInt32) (start total : ℕ) : Pass :=
  if btype = BLOCK_IDB then .skip (ifaces ++ [parse_idb buf swapped start total])
  else if btype = BLOCK_EPB ∨ btype = BLOCK_PB then
    packet_at buf swapped ifaces header btype start total
  else if btype = BLOCK_SPB then simple_at buf swapped start total
  else .skip ifaces

/-! ## The reader -/

structure Reader where
  buf : Bytes
  off : ℕ
  /-- End of the current section. -/
  end_ : ℕ
  swapped : Bool
  ifaces : List Iface
  done : Bool
  header : FileHeader
  end_le : end_ ≤ buf.length

/-- The byte order a section's magic tells. -/
def order_of (raw : UInt32) : Option Bool :=
  if raw = BYTE_ORDER_MAGIC then some false
  else if swap32 raw = BYTE_ORDER_MAGIC then some true
  else none

/-- `enter_section`: adopts the block's byte order and section length, and goes on just past it. -/
def Reader.enter_section (r : Reader) (off : ℕ) : Option Reader :=
  match (rd32 r.buf (off + 8) false).bind order_of with
  | none => none
  | some swapped =>
    match read_block_at r.buf swapped r.buf.length off with
    | none => none
    | some (btype, total) =>
      if btype ≠ BLOCK_SHB ∨ total < 28 then none
      else
        match rd64 r.buf (off + 16) swapped with
        | none => none
        | some section_len =>
          let next := off + total
          some { r with
            swapped
            off := next
            -- a section length of -1 (unknown) runs to the buffer's end
            end_ := if section_len.toNat ≥ 2 ^ 63 then r.buf.length
              else min (next + section_len.toNat) r.buf.length
            ifaces := []
            end_le := by
              split
              · exact le_rfl
              · exact Nat.min_le_right _ _ }

/-- One pass of the loop. -/
inductive Step where
  | stop
  | skip (r : Reader)
  | yield (rec : Record) (r : Reader)

/-- One pass of the loop in `next_record`. -/
def Reader.step (r : Reader) : Step :=
  if r.off + 12 > r.end_ then .stop
  else
    match rd32 r.buf r.off r.swapped with
    | none => .stop
    | some t =>
      if t = BLOCK_SHB then
        match r.enter_section r.off with
        | none => .stop
        | some r' => .skip r'
      else
        match read_block_at r.buf r.swapped r.end_ r.off with
        | none => .stop
        | some (btype, total) =>
          match block_at r.buf r.swapped r.ifaces r.header btype r.off total with
          | .stop => .stop
          | .skip ifaces => .skip { r with off := r.off + total, ifaces }
          | .yield rec => .yield rec { r with off := r.off + total }

/-- A pass that goes on is further into the same file. -/
structure Reader.Ahead (r r' : Reader) : Prop where
  buf_eq : r'.buf = r.buf
  lt_off : r.off < r'.off
  off_le : r'.off ≤ r.buf.length

theorem Reader.Ahead.lt {r r' : Reader} (h : r.Ahead r') :
    r'.buf.length - r'.off < r.buf.length - r.off := by
  have hlt := h.lt_off
  have hle := h.off_le
  rw [h.buf_eq]
  omega

theorem Reader.Ahead.trans {r r' r'' : Reader} (h : r.Ahead r') (h' : r'.Ahead r'') : r.Ahead r'' :=
  ⟨h'.buf_eq.trans h.buf_eq, h.lt_off.trans h'.lt_off, h.buf_eq ▸ h'.off_le⟩

/-- A block has at least twelve octets and lies within its section. -/
theorem read_block_at_bounds {buf : Bytes} {swapped : Bool} {end_ off total : ℕ} {btype : UInt32}
    (h : read_block_at buf swapped end_ off = some (btype, total)) :
    12 ≤ total ∧ off + total ≤ end_ := by
  unfold read_block_at at h
  split at h
  · exact absurd h (Option.some_ne_none _).symm
  · split at h
    · rename_i declared _ _
      dsimp only at h
      split at h
      · exact absurd h (Option.some_ne_none _).symm
      · rename_i hbound
        split at h
        · split at h
          · rw [Option.some.injEq, Prod.mk.injEq] at h
            have hpad : declared.toNat ≤ pad4 declared.toNat := by
              unfold pad4
              omega
            omega
          · exact absurd h (Option.some_ne_none _).symm
        · exact absurd h (Option.some_ne_none _).symm
    · exact absurd h (Option.some_ne_none _).symm

/-- Entering a section moves the reader ahead. -/
theorem Reader.enter_section_ahead {r r' : Reader} (h : r.enter_section r.off = some r') :
    r.Ahead r' := by
  unfold enter_section at h
  split at h
  · exact absurd h (Option.some_ne_none _).symm
  · split at h
    · exact absurd h (Option.some_ne_none _).symm
    · rename_i btype total hblock
      obtain ⟨hlo, hhi⟩ := read_block_at_bounds hblock
      split at h
      · exact absurd h (Option.some_ne_none _).symm
      · split at h
        · exact absurd h (Option.some_ne_none _).symm
        · rw [← Option.some.inj h]
          exact ⟨rfl, by dsimp only; omega, by dsimp only; omega⟩

/-- So does a block that is skipped. -/
theorem Reader.step_skip_ahead {r r' : Reader} (h : r.step = .skip r') : r.Ahead r' := by
  unfold step at h
  split at h
  · exact absurd h Step.noConfusion
  · split at h
    · exact absurd h Step.noConfusion
    · split at h
      · split at h
        · exact absurd h Step.noConfusion
        · rename_i hsome
          rw [← Step.skip.inj h]
          exact enter_section_ahead hsome
      · split at h
        · exact absurd h Step.noConfusion
        · rename_i btype total hblock
          obtain ⟨hlo, hhi⟩ := read_block_at_bounds hblock
          have hend := r.end_le
          split at h
          · exact absurd h Step.noConfusion
          · rw [← Step.skip.inj h]
            exact ⟨rfl, by dsimp only; omega, by dsimp only; omega⟩
          · exact absurd h Step.noConfusion

/-- So does one that is yielded. -/
theorem Reader.step_yield_ahead {r r' : Reader} {rec : Record} (h : r.step = .yield rec r') :
    r.Ahead r' := by
  unfold step at h
  split at h
  · exact absurd h Step.noConfusion
  · split at h
    · exact absurd h Step.noConfusion
    · split at h
      · split at h
        · exact absurd h Step.noConfusion
        · exact absurd h Step.noConfusion
      · split at h
        · exact absurd h Step.noConfusion
        · rename_i btype total hblock
          obtain ⟨hlo, hhi⟩ := read_block_at_bounds hblock
          have hend := r.end_le
          split at h
          · exact absurd h Step.noConfusion
          · exact absurd h Step.noConfusion
          · rw [← (Step.yield.inj h).2]
            exact ⟨rfl, by dsimp only; omega, by dsimp only; omega⟩

/-- `next_record`. -/
def Reader.next_record (r : Reader) : Option (Record × Reader) :=
  match _h : r.step with
  | .stop => none
  | .skip r' => r'.next_record
  | .yield rec r' => some (rec, r')
termination_by r.buf.length - r.off
decreasing_by exact (step_skip_ahead ‹_›).lt

/-- `Reader::next`: the first `None` ends the walk for good. -/
def Reader.next (r : Reader) : Option Record × Reader :=
  if r.done then (none, r)
  else
    match r.next_record with
    | some (rec, r') => (some rec, r')
    | none => (none, { r with done := true })

theorem Reader.next_record_of_stop {r : Reader} (h : r.step = .stop) : r.next_record = none := by
  rw [next_record]
  split
  · rfl
  · rename_i h'
    rw [h] at h'
    exact absurd h' Step.noConfusion
  · rename_i h'
    rw [h] at h'
    exact absurd h' Step.noConfusion

/-- It goes on behind a skipped block. -/
theorem Reader.next_record_of_skip {r r' : Reader} (h : r.step = .skip r') :
    r.next_record = r'.next_record := by
  rw [next_record]
  split
  · rename_i h'
    rw [h] at h'
    exact absurd h' Step.noConfusion
  · rename_i h'
    rw [h] at h'
    rw [Step.skip.inj h']
  · rename_i h'
    rw [h] at h'
    exact absurd h' Step.noConfusion

/-- And it returns the first record yielded. -/
theorem Reader.next_record_of_yield {r r' : Reader} {rec : Record} (h : r.step = .yield rec r') :
    r.next_record = some (rec, r') := by
  rw [next_record]
  split
  · rename_i h'
    rw [h] at h'
    exact absurd h' Step.noConfusion
  · rename_i h'
    rw [h] at h'
    exact absurd h' Step.noConfusion
  · rename_i h'
    rw [h] at h'
    rw [(Step.yield.inj h').1, (Step.yield.inj h').2]

/-- The reader behind a record is ahead of where the search began. -/
theorem Reader.next_record_ahead {r r' : Reader} {rec : Record}
    (h : r.next_record = some (rec, r')) : r.Ahead r' := by
  induction r using next_record.induct with
  | case1 r hstep =>
    rw [next_record_of_stop hstep] at h
    exact absurd h (Option.some_ne_none _).symm
  | case2 r r₁ hstep ih =>
    rw [next_record_of_skip hstep] at h
    exact (step_skip_ahead hstep).trans (ih h)
  | case3 r rec₁ r₁ hstep =>
    rw [next_record_of_yield hstep, Option.some.injEq, Prod.mk.injEq] at h
    rw [← h.2]
    exact step_yield_ahead hstep

/-- The same for the public call. -/
theorem Reader.next_ahead {r : Reader} {rec : Record} (h : r.next.1 = some rec) :
    r.Ahead r.next.2 := by
  unfold next at h ⊢
  split at h
  · exact absurd h (Option.some_ne_none _).symm
  · rename_i hdone
    rw [if_neg hdone]
    split at h
    · rename_i hsome
      exact next_record_ahead hsome
    · exact absurd h (Option.some_ne_none _).symm

/-- What iterating a reader to its end yields. -/
def Reader.collect (r : Reader) : List Record :=
  match _h : r.next.1 with
  | none => []
  | some rec => rec :: r.next.2.collect
termination_by r.buf.length - r.off
decreasing_by exact (next_ahead ‹_›).lt

/-- The interface blocks a file starts with. -/
def Reader.lead (r : Reader) : Reader :=
  match _h : read_block_at r.buf r.swapped r.end_ r.off with
  | none => r
  | some (btype, total) =>
    if btype = BLOCK_IDB then
      lead { r with
        off := r.off + total
        ifaces := r.ifaces ++ [parse_idb r.buf r.swapped r.off total] }
    else r
termination_by r.buf.length - r.off
decreasing_by
  obtain ⟨hlo, hhi⟩ := read_block_at_bounds ‹_›
  have hend := r.end_le
  omega

/-- The first interface gives the file its link type and resolution. -/
def Reader.adopt (r : Reader) : Reader :=
  match r.ifaces.head? with
  | some first =>
    { r with header := { r.header with linktype := first.linktype, tsresol := first.tsresol } }
  | none => r

/-- `Reader::new`: the leading IDBs are read at once, so `header` has a link type before the first
packet. -/
def Reader.new (buf : Bytes) : Except PcapngError Reader :=
  if buf.length < 28 then .error .TooShort
  else
    match rd32 buf 0 false, rd32 buf 8 false with
    | some btype, some raw_magic =>
      if btype ≠ BLOCK_SHB then .error (.NotPcapng btype)
      else
        match order_of raw_magic with
        | none => .error (.BadByteOrder raw_magic)
        | some swapped =>
          let header : FileHeader := { swapped, linktype := 0, tsresol := DEFAULT_TSRESOL }
          match Reader.enter_section
            ⟨buf, 0, buf.length, swapped, [], false, header, le_rfl⟩ 0 with
          | none => .error .BadSectionHeader
          | some r => .ok r.lead.adopt
    | _, _ => .error .TooShort

/-! ## Writing -/

/-- `MAX_CAPLEN`: the captured length has to fit the block's own 32-bit total length. -/
def MAX_CAPLEN : ℕ := (2 ^ 32 - 1 - 36) / 4 * 4

/-- `write_block`: the body is padded to four octets, and the total length repeated. -/
def write_block (btype : UInt32) (body : Bytes) : Bytes :=
  let total := UInt32.ofNat (12 + pad4 body.length)
  le32 btype ++ le32 total ++ body ++ List.replicate (pad4 body.length - body.length) 0 ++ le32 total

/-- `write_shb`: the section length is unknown. -/
def write_shb : Bytes :=
  write_block BLOCK_SHB
    (le32 BYTE_ORDER_MAGIC ++ le16 1 ++ le16 0 ++ digits 8 (0xffffffffffffffff : UInt64).toNat)

/-- `write_idb`: 10^-6 is the default resolution, so only the other one needs saying. -/
def write_idb (linktype snaplen : UInt32) (nanos : Bool) : Bytes :=
  write_block BLOCK_IDB
    (le16 linktype.toUInt16 ++ le16 0 ++ le32 snaplen ++
      if nanos then le16 OPT_IF_TSRESOL ++ le16 1 ++ [9, 0, 0, 0] ++ le16 OPT_END ++ le16 0 else [])

/-- `write_epb`. -/
def write_epb (iface ts_sec ts_frac : UInt32) (data : Bytes) (origlen : UInt32) (nanos : Bool) :
    Bytes :=
  let data := data.take (min data.length MAX_CAPLEN)
  let caplen := UInt32.ofNat data.length
  let tsresol := if nanos then 1000000000 else DEFAULT_TSRESOL
  let ticks := min (min (ts_sec.toNat * tsresol) (2 ^ 64 - 1) + ts_frac.toNat) (2 ^ 64 - 1)
  write_block BLOCK_EPB
    (le32 iface ++ le32 (UInt32.ofNat (ticks / 2 ^ 32)) ++ le32 (UInt32.ofNat ticks) ++
      le32 caplen ++ le32 (max origlen caplen) ++ data)

end Wiry.Capture.Pcapng
