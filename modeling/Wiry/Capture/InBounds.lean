/-
The pcapng reader of `crates/wiry-core/src/pcapng.rs` never runs away.

The `_checked` definitions are the reader's passes with every sum and difference of offsets held to
64 bits and every octet it asks for required to be there, where the code's `get` would end the walk.
No pass of a reader that a file opens fails any of it.
-/
import Wiry.Capture.CutOff
import Wiry.Lib.Checked

set_option autoImplicit false

namespace Wiry.Capture.Pcapng

open Packet
open Checked (add sub add_bind sub_bind some_bind)

/-! ## Checked passes -/

/-- `pad4`, whose sum is checked. -/
def pad4_checked (n : ℕ) : Option ℕ := do
  let past ← add n 3
  some (past / 4 * 4)

def rd16_checked (buf : Bytes) (o : ℕ) (swapped : Bool) : Option UInt16 := do
  let _ ← add o 2
  rd16 buf o swapped

def rd32_checked (buf : Bytes) (o : ℕ) (swapped : Bool) : Option UInt32 := do
  let _ ← add o 4
  rd32 buf o swapped

def rd64_checked (buf : Bytes) (o : ℕ) (swapped : Bool) : Option UInt64 := do
  let at_hi ← add o 4
  let _ ← add at_hi 4
  rd64 buf o swapped

def read_block_at_checked (buf : Bytes) (swapped : Bool) (end_ off : ℕ) :
    Option (Option (UInt32 × ℕ)) := do
  let past ← add off 12
  if past > end_ then some none
  else do
    let btype ← rd32_checked buf off swapped
    let at_len ← add off 4
    let declared ← rd32_checked buf at_len swapped
    let total ← pad4_checked declared.toNat
    if declared.toNat < 12 then some none
    else do
      let stop ← add off total
      if stop > end_ then some none
      else do
        let at_trailing ← sub stop 4
        let trailing ← rd32_checked buf at_trailing swapped
        some (if trailing = declared then some (btype, total) else none)

/-- The options of an interface block. A loop that is not over after `n` turns fails. -/
def idb_options_checked (buf : Bytes) (swapped : Bool) (body_end : ℕ) : ℕ → ℕ → ℕ → Option ℕ
  | 0, o, tsresol => do
    let past ← add o 4
    if past ≤ body_end then none else some tsresol
  | n + 1, o, tsresol => do
    let past ← add o 4
    if past ≤ body_end then do
      let code ← rd16_checked buf o swapped
      let at_len ← add o 2
      let len ← rd16_checked buf at_len swapped
      if code = OPT_END then some tsresol
      else do
        let stop ← add past len.toNat
        if stop > body_end then some tsresol
        else do
          let tsresol ←
            if code = OPT_IF_TSRESOL ∧ 1 ≤ len.toNat then buf[past]?.map decode_tsresol
            else some tsresol
          let padded ← pad4_checked len.toNat
          let o ← add past padded
          idb_options_checked buf swapped body_end n o tsresol
    else some tsresol

def parse_idb_checked (buf : Bytes) (swapped : Bool) (off total : ℕ) : Option Iface := do
  let at_link ← add off 8
  let linktype ← rd16_checked buf at_link swapped
  let stop ← add off total
  let body_end ← sub stop 4
  let o ← add off 16
  let tsresol ← idb_options_checked buf swapped body_end total o DEFAULT_TSRESOL
  some ⟨linktype.toUInt32, tsresol⟩

/-- The interface id of an EPB, or the narrower one of a PB. -/
def iface_id_checked (buf : Bytes) (swapped : Bool) (btype : UInt32) (o : ℕ) : Option UInt32 :=
  if btype = BLOCK_PB then (rd16_checked buf o swapped).map UInt16.toUInt32
  else rd32_checked buf o swapped

def packet_at_checked (buf : Bytes) (swapped : Bool) (ifaces : List Iface) (header : FileHeader)
    (btype : UInt32) (start total : ℕ) : Option Pass :=
  if total < 32 then some .stop
  else do
    let at_id ← add start 8
    let iface_id ← iface_id_checked buf swapped btype at_id
    if ifaces[iface_id.toNat]? = none then some (.skip ifaces)
    else do
      let at_hi ← add start 12
      let hi ← rd32_checked buf at_hi swapped
      let at_lo ← add start 16
      let lo ← rd32_checked buf at_lo swapped
      let at_caplen ← add start 20
      let caplen ← rd32_checked buf at_caplen swapped
      let at_origlen ← add start 24
      let origlen ← rd32_checked buf at_origlen swapped
      let padded ← pad4_checked caplen.toNat
      let room ← sub total 32
      if padded > room then some .stop
      else do
        let first ← add start 28
        let last ← add first caplen.toNat
        let data ← slice_checked buf first last
        let ticks := (hi.toUInt64 <<< 32 ||| lo.toUInt64).toNat
        let ts := split_ts ticks (tsresol_for ifaces header iface_id.toNat)
        some (.yield { ts_sec := ts.1, ts_frac := ts.2, caplen, origlen, data })

def simple_at_checked (buf : Bytes) (swapped : Bool) (start total : ℕ) : Option Pass :=
  if total < 16 then some .stop
  else do
    let at_origlen ← add start 8
    let origlen ← rd32_checked buf at_origlen swapped
    let room ← sub total 16
    let first ← add start 12
    let last ← add first (min origlen.toNat room)
    let data ← slice_checked buf first last
    some (.yield
      { ts_sec := 0, ts_frac := 0, caplen := UInt32.ofNat (min origlen.toNat room), origlen, data })

def block_at_checked (buf : Bytes) (swapped : Bool) (ifaces : List Iface) (header : FileHeader)
    (btype : UInt32) (start total : ℕ) : Option Pass :=
  if btype = BLOCK_IDB then
    (parse_idb_checked buf swapped start total).map fun iface => .skip (ifaces ++ [iface])
  else if btype = BLOCK_EPB ∨ btype = BLOCK_PB then
    packet_at_checked buf swapped ifaces header btype start total
  else if btype = BLOCK_SPB then simple_at_checked buf swapped start total
  else some (.skip ifaces)

def Reader.enter_section_checked (r : Reader) (off : ℕ) : Option (Option Reader) := do
  let at_magic ← add off 8
  let raw_magic ← rd32_checked r.buf at_magic false
  match order_of raw_magic with
  | none => some none
  | some swapped => do
    match ← read_block_at_checked r.buf swapped r.buf.length off with
    | none => some none
    | some (btype, total) =>
      if btype ≠ BLOCK_SHB ∨ total < 28 then some none
      else do
        let next ← add off total
        let at_len ← add off 16
        let section_len ← rd64_checked r.buf at_len swapped
        some (some { r with
          swapped
          off := next
          end_ := if section_len.toNat ≥ 2 ^ 63 then r.buf.length
            else min (next + section_len.toNat) r.buf.length
          ifaces := []
          end_le := by
            split
            · exact le_rfl
            · exact Nat.min_le_right _ _ })

/-- One pass of the loop in `next_record`. -/
def Reader.step_checked (r : Reader) : Option Step := do
  let past ← add r.off 12
  if past > r.end_ then some .stop
  else do
    let t ← rd32_checked r.buf r.off r.swapped
    if t = BLOCK_SHB then do
      match ← r.enter_section_checked r.off with
      | none => some .stop
      | some r' => some (.skip r')
    else do
      match ← read_block_at_checked r.buf r.swapped r.end_ r.off with
      | none => some .stop
      | some (btype, total) => do
        let off ← add r.off total
        match ← block_at_checked r.buf r.swapped r.ifaces r.header btype r.off total with
        | .stop => some .stop
        | .skip ifaces => some (.skip { r with off, ifaces })
        | .yield rec => some (.yield rec { r with off })

/-! ## No pass fails -/

section

variable {α : Type} {buf : Bytes}

theorem pad4_bind {n : ℕ} (h : n < 2 ^ 32) (f : ℕ → Option α) : (pad4_checked n >>= f) = f (pad4 n) := by
  unfold pad4_checked
  rw [add_bind (by omega)]
  rfl

theorem rd16_bind (hbuf : buf.length < 2 ^ 63) {o : ℕ} (h : o + 2 ≤ buf.length) {swapped : Bool}
    {v : UInt16} (hv : rd16 buf o swapped = some v) (f : UInt16 → Option α) :
    (rd16_checked buf o swapped >>= f) = f v := by
  unfold rd16_checked
  rw [add_bind (by omega), hv]
  rfl

theorem rd32_bind (hbuf : buf.length < 2 ^ 63) {o : ℕ} (h : o + 4 ≤ buf.length) {swapped : Bool}
    {v : UInt32} (hv : rd32 buf o swapped = some v) (f : UInt32 → Option α) :
    (rd32_checked buf o swapped >>= f) = f v := by
  unfold rd32_checked
  rw [add_bind (by omega), hv]
  rfl

/-- `rd32_bind`, for eight octets. -/
theorem rd64_bind (hbuf : buf.length < 2 ^ 63) {o : ℕ} (h : o + 8 ≤ buf.length) {swapped : Bool}
    {v : UInt64} (hv : rd64 buf o swapped = some v) (f : UInt64 → Option α) :
    (rd64_checked buf o swapped >>= f) = f v := by
  unfold rd64_checked
  rw [add_bind (by omega), add_bind (by omega), hv]
  rfl

theorem rd64_some {o : ℕ} (h : o + 8 ≤ buf.length) (swapped : Bool) :
    ∃ v, rd64 buf o swapped = some v := by
  obtain ⟨lo, hlo⟩ := rd32_some (show o + 4 ≤ buf.length by omega) swapped
  obtain ⟨hi, hhi⟩ := rd32_some (show o + 4 + 4 ≤ buf.length by omega) swapped
  unfold rd64
  rw [hlo, hhi]
  exact ⟨_, rfl⟩

/-- With less than 2^63 octets no addition of the block header overflows. -/
theorem read_block_at_checked_eq (hbuf : buf.length < 2 ^ 63) {end_ off : ℕ} (hend : end_ ≤ buf.length)
    (hoff : off ≤ buf.length) (swapped : Bool) :
    read_block_at_checked buf swapped end_ off = some (read_block_at buf swapped end_ off) := by
  unfold read_block_at_checked read_block_at
  rw [add_bind (by omega)]
  -- Each sum is bounded by the test before it: inside the buffer, whose length is under `2 ^ 63`.
  by_cases hpast : off + 12 > end_
  · rw [if_pos hpast, if_pos hpast]
  · obtain ⟨btype, hbtype⟩ := rd32_some (show off + 4 ≤ buf.length by omega) swapped
    obtain ⟨declared, hdeclared⟩ := rd32_some (show off + 4 + 4 ≤ buf.length by omega) swapped
    have hword := declared.toNat_lt
    -- the declared length is one word, so padding it does not overflow
    have hpad : pad4 declared.toNat < 2 ^ 32 + 4 := by
      unfold pad4
      omega
    rw [if_neg hpast, if_neg hpast, rd32_bind hbuf (by omega) hbtype, add_bind (by omega),
      rd32_bind hbuf (by omega) hdeclared, pad4_bind hword, hbtype, hdeclared]
    dsimp only
    by_cases hsmall : declared.toNat < 12
    · rw [if_pos hsmall, if_pos (.inl hsmall)]
    · have hle := le_pad4 declared.toNat
      rw [if_neg hsmall, add_bind (by omega)]
      by_cases hstop : off + pad4 declared.toNat > end_
      · rw [if_pos hstop, if_pos (.inr hstop)]
      · obtain ⟨trailing, htrailing⟩ :=
          rd32_some (show off + pad4 declared.toNat - 4 + 4 ≤ buf.length by omega) swapped
        rw [if_neg hstop, if_neg (by omega), sub_bind (by omega), rd32_bind hbuf (by omega) htrailing,
          htrailing]

/-- Every option takes four octets at least, so the turns are enough. -/
theorem idb_options_checked_eq (hbuf : buf.length < 2 ^ 63) {body_end : ℕ} (hend : body_end ≤ buf.length)
    (swapped : Bool) {n o : ℕ} (hturns : body_end ≤ o + 4 * n) (ho : o ≤ buf.length + 2 ^ 17)
    (tsresol : ℕ) :
    idb_options_checked buf swapped body_end n o tsresol =
      some (idb_options buf swapped body_end n o tsresol) := by
  -- By the options left; an offset stays within one option of the buffer's end, so 2^17 is room
  -- enough.
  induction n generalizing o tsresol with
  | zero =>
    rw [idb_options_checked, idb_options, add_bind (by omega), if_neg (by omega)]
  | succ n ih =>
    rw [idb_options_checked, idb_options, add_bind (by omega)]
    -- An option that is there is read and passed; each sum is bounded by its length of sixteen
    -- bits.
    by_cases hpast : o + 4 ≤ body_end
    · obtain ⟨code, hcode⟩ := rd16_some (show o + 2 ≤ buf.length by omega) swapped
      obtain ⟨len, hlen⟩ := rd16_some (show o + 2 + 2 ≤ buf.length by omega) swapped
      have hword := len.toNat_lt
      have hpad : pad4 len.toNat < 2 ^ 16 + 4 := by
        unfold pad4
        omega
      rw [if_pos hpast, if_pos hpast, rd16_bind hbuf (by omega) hcode, add_bind (by omega),
        rd16_bind hbuf (by omega) hlen, hcode, hlen]
      dsimp only
      by_cases hdone : code = OPT_END
      · rw [if_pos hdone, if_pos hdone]
      rw [if_neg hdone, if_neg hdone, add_bind (by omega)]
      by_cases hstop : o + 4 + len.toNat > body_end
      · rw [if_pos hstop, if_pos hstop]
      rw [if_neg hstop, if_neg hstop]
      by_cases hres : code = OPT_IF_TSRESOL ∧ 1 ≤ len.toNat
      · have hthere : buf[o + 4]? = some (buf.getD (o + 4) 0) := getElem?_eq_getD (by omega)
        rw [if_pos hres, if_pos hres, hthere, Option.map_some, some_bind rfl, pad4_bind (by omega),
          add_bind (by omega), Option.getD_some]
        exact ih (by omega) (by omega) _
      · rw [if_neg hres, if_neg hres, some_bind rfl, pad4_bind (by omega), add_bind (by omega)]
        exact ih (by omega) (by omega) _
    · rw [if_neg hpast, if_neg hpast]

theorem parse_idb_checked_eq (hbuf : buf.length < 2 ^ 63) {off total : ℕ} (htotal : 12 ≤ total)
    (hin : off + total ≤ buf.length) (swapped : Bool) :
    parse_idb_checked buf swapped off total = some (parse_idb buf swapped off total) := by
  obtain ⟨linktype, hlinktype⟩ := rd16_some (show off + 8 + 2 ≤ buf.length by omega) swapped
  unfold parse_idb_checked parse_idb
  rw [add_bind (by omega), rd16_bind hbuf (by omega) hlinktype, add_bind (by omega), sub_bind (by omega),
    add_bind (by omega), some_bind (idb_options_checked_eq hbuf (by omega) swapped (by omega) (by omega) _),
    hlinktype, Option.getD_some]

/-- Nor does one in a packet block: every offset is at most the block's end. -/
theorem packet_at_checked_eq (hbuf : buf.length < 2 ^ 63) {start total : ℕ}
    (hin : start + total ≤ buf.length) (swapped : Bool) (ifaces : List Iface) (header : FileHeader)
    (btype : UInt32) :
    packet_at_checked buf swapped ifaces header btype start total =
      some (packet_at buf swapped ifaces header btype start total) := by
  unfold packet_at_checked packet_at
  by_cases htotal : total < 32
  · rw [if_pos htotal, if_pos htotal]
  rw [if_neg htotal, if_neg htotal, add_bind (by omega)]
  obtain ⟨narrow, hnarrow⟩ := rd16_some (show start + 8 + 2 ≤ buf.length by omega) swapped
  obtain ⟨wide, hwide⟩ := rd32_some (show start + 8 + 4 ≤ buf.length by omega) swapped
  obtain ⟨hi, hhi⟩ := rd32_some (show start + 12 + 4 ≤ buf.length by omega) swapped
  obtain ⟨lo, hlo⟩ := rd32_some (show start + 16 + 4 ≤ buf.length by omega) swapped
  obtain ⟨caplen, hcaplen⟩ := rd32_some (show start + 20 + 4 ≤ buf.length by omega) swapped
  obtain ⟨origlen, horiglen⟩ := rd32_some (show start + 24 + 4 ≤ buf.length by omega) swapped
  have hword := caplen.toNat_lt
  have hle := le_pad4 caplen.toNat
  -- the id of either width is there
  have hid : ∃ id : UInt32,
      iface_id_checked buf swapped btype (start + 8) = some id ∧
      (if btype = BLOCK_PB then (rd16 buf (start + 8) swapped).map UInt16.toUInt32
        else rd32 buf (start + 8) swapped) = some id := by
    by_cases hold : btype = BLOCK_PB
    · refine ⟨narrow.toUInt32, ?_, ?_⟩
      · rw [iface_id_checked, if_pos hold, rd16_checked, add_bind (by omega), hnarrow, Option.map_some]
      · rw [if_pos hold, hnarrow, Option.map_some]
    · refine ⟨wide, ?_, ?_⟩
      · rw [iface_id_checked, if_neg hold, rd32_checked, add_bind (by omega), hwide]
      · rw [if_neg hold, hwide]
  obtain ⟨id, hchecked, hplain⟩ := hid
  rw [some_bind hchecked, hplain]
  dsimp only
  by_cases hknown : ifaces[id.toNat]? = none
  · rw [if_pos hknown, if_pos hknown]
  rw [if_neg hknown, if_neg hknown, add_bind (by omega), rd32_bind hbuf (by omega) hhi,
    add_bind (by omega), rd32_bind hbuf (by omega) hlo, add_bind (by omega),
    rd32_bind hbuf (by omega) hcaplen, add_bind (by omega), rd32_bind hbuf (by omega) horiglen,
    pad4_bind hword, sub_bind (by omega), hhi, hlo, hcaplen, horiglen]
  dsimp only
  by_cases hroom : pad4 caplen.toNat > total - 32
  · rw [if_pos hroom, if_pos hroom]
  · have hdata := @slice_checked_eq buf _ _ (show start + 28 ≤ start + 28 + caplen.toNat by omega)
      (by omega)
    rw [if_neg hroom, if_neg hroom, add_bind (by omega), add_bind (by omega), some_bind hdata, hdata]

/-- Nor in a simple packet block. -/
theorem simple_at_checked_eq (hbuf : buf.length < 2 ^ 63) {start total : ℕ}
    (hin : start + total ≤ buf.length) (swapped : Bool) :
    simple_at_checked buf swapped start total = some (simple_at buf swapped start total) := by
  unfold simple_at_checked simple_at
  by_cases htotal : total < 16
  · rw [if_pos htotal, if_pos htotal]
  obtain ⟨origlen, horiglen⟩ := rd32_some (show start + 8 + 4 ≤ buf.length by omega) swapped
  have hdata := @slice_checked_eq buf _ _
    (show start + 12 ≤ start + 12 + min origlen.toNat (total - 16) by omega) (by omega)
  rw [if_neg htotal, if_neg htotal, add_bind (by omega), rd32_bind hbuf (by omega) horiglen,
    sub_bind (by omega), add_bind (by omega), add_bind (by omega), some_bind hdata, horiglen]
  dsimp only
  rw [hdata]

/-- Nor in any block, by its type. -/
theorem block_at_checked_eq (hbuf : buf.length < 2 ^ 63) {start total : ℕ} (htotal : 12 ≤ total)
    (hin : start + total ≤ buf.length) (swapped : Bool) (ifaces : List Iface) (header : FileHeader)
    (btype : UInt32) :
    block_at_checked buf swapped ifaces header btype start total =
      some (block_at buf swapped ifaces header btype start total) := by
  unfold block_at_checked block_at
  split
  · rw [parse_idb_checked_eq hbuf htotal hin, Option.map_some]
  · split
    · exact packet_at_checked_eq hbuf hin swapped ifaces header btype
    · split
      · exact simple_at_checked_eq hbuf hin swapped
      · rfl

end

namespace Reader

variable {r : Reader}

/-- Nor on entering a section. -/
theorem enter_section_checked_eq (hbuf : r.buf.length < 2 ^ 63) {off : ℕ}
    (hoff : off + 12 ≤ r.buf.length) : r.enter_section_checked off = some (r.enter_section off) := by
  obtain ⟨raw, hraw⟩ := rd32_some (show off + 8 + 4 ≤ r.buf.length by omega) false
  unfold enter_section_checked enter_section
  rw [add_bind (by omega), rd32_bind hbuf (by omega) hraw, hraw, Option.bind_some]
  cases order_of raw with
  | none => rfl
  | some swapped =>
    dsimp only
    rw [some_bind (read_block_at_checked_eq hbuf le_rfl (by omega) swapped)]
    cases hblock : read_block_at r.buf swapped r.buf.length off with
    | none => rfl
    | some block =>
      obtain ⟨btype, total⟩ := block
      obtain ⟨-, hin⟩ := read_block_at_bounds hblock
      dsimp only
      by_cases hshb : btype ≠ BLOCK_SHB ∨ total < 28
      · rw [if_pos hshb, if_pos hshb]
      · obtain ⟨section_len, hlen⟩ := rd64_some (show off + 16 + 8 ≤ r.buf.length by omega) swapped
        rw [if_neg hshb, if_neg hshb, add_bind (by omega), add_bind (by omega),
          rd64_bind hbuf (by omega) hlen, hlen]

/-- **A pass overflows nothing and reads nothing that is not there.** -/
theorem step_checked_eq (hbuf : r.buf.length < 2 ^ 63) (hoff : r.off ≤ r.buf.length) :
    r.step_checked = some r.step := by
  have hend := r.end_le
  unfold step_checked step
  rw [add_bind (by omega)]
  -- Guard by guard the checked step takes the branch of the plain one.
  by_cases hpast : r.off + 12 > r.end_
  · rw [if_pos hpast, if_pos hpast]
  obtain ⟨t, ht⟩ := rd32_some (show r.off + 4 ≤ r.buf.length by omega) r.swapped
  rw [if_neg hpast, if_neg hpast, rd32_bind hbuf (by omega) ht, ht]
  dsimp only
  by_cases hshb : t = BLOCK_SHB
  · rw [if_pos hshb, if_pos hshb, some_bind (enter_section_checked_eq hbuf (by omega))]
    cases r.enter_section r.off with
    | none => rfl
    | some r' => rfl
  · rw [if_neg hshb, if_neg hshb, some_bind (read_block_at_checked_eq hbuf hend hoff r.swapped)]
    cases hblock : read_block_at r.buf r.swapped r.end_ r.off with
    | none => rfl
    | some block =>
      obtain ⟨btype, total⟩ := block
      obtain ⟨htotal, hin⟩ := read_block_at_bounds hblock
      dsimp only
      rw [add_bind (by omega), some_bind (block_at_checked_eq hbuf htotal (by omega) _ _ _ _)]
      cases block_at r.buf r.swapped r.ifaces r.header btype r.off total with
      | stop => rfl
      | skip ifaces => rfl
      | yield rec => rfl

/-! ## Each pass gets on -/

/-- A section header takes at least twelve octets. -/
theorem enter_section_off {r' : Reader} {off : ℕ} (h : r.enter_section off = some r') :
    off + 12 ≤ r'.off := by
  unfold enter_section at h
  split at h
  · cases h
  · split at h
    · cases h
    · rename_i btype total hblock
      obtain ⟨hlo, -⟩ := read_block_at_bounds hblock
      split at h
      · cases h
      · split at h
        · cases h
        · rw [← Option.some.inj h]
          dsimp only
          omega

/-- **A pass that does not stop gets twelve octets on**, in the same file and within it. -/
theorem step_off {r' : Reader} (h : r.step = .skip r' ∨ ∃ rec, r.step = .yield rec r') :
    r.off + 12 ≤ r'.off ∧ r'.buf = r.buf ∧ r'.off ≤ r.buf.length := by
  -- The reader is ahead in any case; what is left is that a block has twelve octets.
  have hahead : r.Ahead r' := by
    rcases h with h | ⟨rec, h⟩
    · exact step_skip_ahead h
    · exact step_yield_ahead h
  refine ⟨?_, hahead.buf_eq, hahead.off_le⟩
  unfold step at h
  split at h
  · rcases h with h | ⟨rec, h⟩ <;> cases h
  · split at h
    · rcases h with h | ⟨rec, h⟩ <;> cases h
    · split at h
      · split at h
        · rcases h with h | ⟨rec, h⟩ <;> cases h
        · rename_i hsome
          rcases h with h | ⟨rec, h⟩
          · rw [← Step.skip.inj h]
            exact enter_section_off hsome
          · cases h
      · split at h
        · rcases h with h | ⟨rec, h⟩ <;> cases h
        · rename_i btype total hblock
          obtain ⟨hlo, -⟩ := read_block_at_bounds hblock
          split at h
          · rcases h with h | ⟨rec, h⟩ <;> cases h
          · rcases h with h | ⟨rec, h⟩
            · rw [← Step.skip.inj h]
              dsimp only
              omega
            · cases h
          · rcases h with h | ⟨rec, h⟩
            · cases h
            · rw [← (Step.yield.inj h).2]
              dsimp only
              omega

/-- A record costs twelve octets of the file. -/
theorem next_record_off {r' : Reader} {rec : Record} (h : r.next_record = some (rec, r')) :
    r.off + 12 ≤ r'.off ∧ r'.buf = r.buf ∧ r'.off ≤ r.buf.length := by
  induction r using next_record.induct with
  | case1 r hstep =>
    rw [next_record_of_stop hstep] at h
    cases h
  | case2 r r₁ hstep ih =>
    rw [next_record_of_skip hstep] at h
    obtain ⟨hfirst, hbuf, -⟩ := step_off (.inl hstep)
    obtain ⟨hrest, hbuf', hle⟩ := ih h
    exact ⟨by omega, hbuf'.trans hbuf, hbuf ▸ hle⟩
  | case3 r rec₁ r₁ hstep =>
    rw [next_record_of_yield hstep, Option.some.injEq, Prod.mk.injEq] at h
    rw [← h.2]
    exact step_off (.inr ⟨rec₁, hstep⟩)

/-! ## The whole walk -/

/-- The reader after `n` calls of `next`. -/
def after (r : Reader) : ℕ → Reader
  | 0 => r
  | n + 1 => (r.after n).next.2

theorem next_off {rec : Record} (h : r.next.1 = some rec) :
    r.off + 12 ≤ r.next.2.off ∧ r.next.2.buf = r.buf ∧ r.next.2.off ≤ r.buf.length := by
  unfold next at h ⊢
  split at h
  · cases h
  · rename_i hdone
    rw [if_neg hdone]
    split at h
    · rename_i hrecord
      exact next_record_off hrecord
    · cases h

/-- What has ended stays as it is. -/
theorem next_of_done (h : r.done = true) : r.next = (none, r) := by
  unfold next
  rw [if_pos h]

theorem done_of_next (h : r.next.1 = none) : r.next.2.done = true := by
  unfold next at h ⊢
  split at h
  · rename_i hdone
    rw [if_pos hdone]
    exact hdone
  · rename_i hdone
    rw [if_neg hdone]
    split at h
    · cases h
    · rfl

/-- After the first `None` there is nothing else. -/
theorem none_after {n : ℕ} (h : (r.after n).next.1 = none) {m : ℕ} (hm : n ≤ m) :
    (r.after m).next.1 = none := by
  induction m, hm using Nat.le_induction with
  | base => exact h
  | succ m hm ih =>
    rw [after, next_of_done (done_of_next ih)]

/-- What a walk that still yields has got through. -/
theorem off_after {n : ℕ} {rec : Record} (h : (r.after n).next.1 = some rec) :
    r.off + 12 * n ≤ (r.after n).off ∧ (r.after n).buf = r.buf := by
  induction n generalizing rec with
  | zero => exact ⟨le_rfl, rfl⟩
  | succ n ih =>
    cases hprev : (r.after n).next.1 with
    | none =>
      rw [none_after hprev (Nat.le_succ n)] at h
      cases h
    | some before =>
      obtain ⟨hoff, hbuf⟩ := ih hprev
      obtain ⟨hnext, hbuf', -⟩ := next_off hprev
      rw [after]
      exact ⟨by omega, hbuf'.trans hbuf⟩

/-- The `n`-th record needs a file of `12 * n` octets. -/
theorem records_within {n : ℕ} {rec : Record} (h : (r.after n).next.1 = some rec) :
    n + 1 ≤ r.buf.length / 12 := by
  obtain ⟨hoff, hbuf⟩ := off_after h
  obtain ⟨hnext, -, hle⟩ := next_off h
  rw [hbuf] at hle
  omega

/-- A reader that a file's walk comes by, from before its first section on. -/
inductive Reached (file : Bytes) : Reader → Prop
  | opening (swapped : Bool) : Reached file (opening file swapped)
  | adopt {r : Reader} (before : Reached file r) : Reached file r.adopt
  | step {r r' : Reader} (before : Reached file r)
      (pass : r.step = .skip r' ∨ ∃ rec, r.step = .yield rec r') : Reached file r'

theorem Reached.within {file : Bytes} (h : Reached file r) : r.buf = file ∧ r.off ≤ file.length := by
  induction h with
  | opening swapped => exact ⟨rfl, Nat.zero_le _⟩
  | adopt before ih =>
    unfold Reader.adopt
    split
    · exact ih
    · exact ih
  | step before pass ih =>
    obtain ⟨-, hbuf, hle⟩ := step_off pass
    exact ⟨hbuf.trans ih.1, ih.1 ▸ hle⟩

/-- A turn of the loop that reads the leading interfaces is a pass. -/
theorem Reached.lead {file : Bytes} (h : Reached file r) : Reached file r.lead := by
  induction r using lead.induct with
  | case1 r hnone =>
    rw [Reader.lead]
    split
    · exact h
    · rename_i hsome
      rw [hnone] at hsome
      cases hsome
  | case2 r total hblock ih =>
    rw [lead_of_idb hblock]
    exact ih (.step h (.inl (step_of_idb hblock)))
  | case3 r btype total hblock hother =>
    rw [Reader.lead]
    split
    · exact h
    · rename_i hsome
      rw [hblock, Option.some.injEq, Prod.mk.injEq] at hsome
      rw [if_neg (hsome.1 ▸ hother)]
      exact h

/-- An opened file is walked from before its first section. -/
theorem reached_of_new {file : Bytes} (h : Reader.new file = .ok r) : Reached file r := by
  obtain ⟨swapped, r₁, hopens, rfl⟩ := (new_iff file r).1 h
  have hfirst : Reached file r₁ := .step (.opening swapped) (.inl hopens.step.2)
  exact hfirst.lead.adopt

/-- The reader behind a record is reached too. -/
theorem Reached.next {file : Bytes} {r' : Reader} {rec : Record} (h : Reached file r)
    (hrecord : r.next_record = some (rec, r')) : Reached file r' := by
  induction r using next_record.induct with
  | case1 r hstep =>
    rw [next_record_of_stop hstep] at hrecord
    cases hrecord
  | case2 r r₁ hstep ih =>
    rw [next_record_of_skip hstep] at hrecord
    exact ih (.step h (.inl hstep)) hrecord
  | case3 r rec₁ r₁ hstep =>
    rw [next_record_of_yield hstep, Option.some.injEq, Prod.mk.injEq] at hrecord
    rw [← hrecord.2]
    exact .step h (.inr ⟨rec₁, hstep⟩)

end Reader

/-- **The reader never runs away.** Of a file that opens, every pass overflows nothing and reads only
what is there, and stops or gets twelve octets on; there is a record for every twelve octets at most,
and nothing after the first `None`. A slice has fewer than `2 ^ 63` octets. -/
theorem reader_bounded {file : Bytes} {r : Reader} (hfile : file.length < 2 ^ 63)
    (h : Reader.new file = .ok r) :
    Reader.Reached file r ∧
    (∀ r₁, Reader.Reached file r₁ →
      r₁.step_checked = some r₁.step ∧
      (∀ r₂, (r₁.step = .skip r₂ ∨ ∃ rec, r₁.step = .yield rec r₂) → r₁.off + 12 ≤ r₂.off) ∧
      ∀ rec r₂, r₁.next_record = some (rec, r₂) → Reader.Reached file r₂) ∧
    (∀ n rec, (r.after n).next.1 = some rec → n + 1 ≤ file.length / 12) ∧
    ∀ n m, n ≤ m → (r.after n).next.1 = none → (r.after m).next.1 = none := by
  have hreached := Reader.reached_of_new h
  refine ⟨hreached, ?_, ?_, ?_⟩
  -- What a reader reached does next, by the bounds of its offset.
  · intro r₁ hr₁
    obtain ⟨hbuf, hoff⟩ := hr₁.within
    refine ⟨Reader.step_checked_eq (by rw [hbuf]; exact hfile) (by rw [hbuf]; exact hoff), ?_, ?_⟩
    · intro r₂ hpass
      exact (Reader.step_off hpass).1
    · intro rec r₂ hrecord
      exact hr₁.next hrecord
  -- each record takes at least the twelve octets of a block
  · intro n rec hn
    have hle := Reader.records_within hn
    rwa [hreached.within.1] at hle
  · intro n m hm hnone
    exact Reader.none_after hnone hm

/-- A section of one interface and one packet: 84 octets, so seven records at most. -/
theorem reader_bounded_sample :
    ∃ r, Reader.new (sample_section true).encode = .ok r ∧ r.step_checked = some r.step ∧
      ∀ n rec, (r.after n).next.1 = some rec → n + 1 ≤ 7 := by
  have hlen : (sample_section true).encode.length = 84 := by decide +kernel
  obtain ⟨r, hnew, -⟩ := @new_encode (sample_section true) [] _ (List.append_nil _).symm
  have hsmall : (sample_section true).encode.length < 2 ^ 63 := by
    rw [hlen]
    decide
  have hbounded := reader_bounded hsmall hnew
  refine ⟨r.lead.adopt, hnew, (hbounded.2.1 _ hbounded.1).1, ?_⟩
  intro n rec hrec
  have hle := hbounded.2.2.1 n rec hrec
  rwa [hlen] at hle

end Wiry.Capture.Pcapng
