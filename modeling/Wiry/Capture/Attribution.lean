/-
Which interface a record of a pcapng file was captured on, and what of that
interface the file's one header tells.

`Section.attributed` pairs every record with the interface and the ticks its own
block holds. Each time is split at the resolution of that interface, while link
type and scale are reported once, from the interface the file starts with.
-/
import Wiry.Capture.RoundTrip

set_option autoImplicit false

namespace Wiry.Capture

open Packet

/-- A record's time in ticks of the scale it is read at. -/
def Record.ticks_at (rec : Record) (nanos : Bool) : ℕ :=
  rec.ts_sec.toNat * resolution nanos + rec.ts_frac.toNat

namespace Pcapng

/-- Whether the packets of an interface are split into nanoseconds. -/
def Iface.nanos (iface : Iface) : Bool := iface.tsresol == 1000000000

/-! ## Resolutions -/

/-- No octet decodes to a resolution of zero. -/
theorem decode_tsresol_pos (v : UInt8) : 0 < decode_tsresol v := by
  have hticks : 0 < if v &&& 0x80 ≠ 0 then 2 ^ (v &&& 0x7f).toNat else 10 ^ v.toNat := by
    split
    · exact Nat.pow_pos (Nat.succ_pos 1)
    · exact Nat.pow_pos (Nat.succ_pos 9)
  unfold decode_tsresol
  dsimp only
  by_cases hfits : (if v &&& 0x80 ≠ 0 then 2 ^ (v &&& 0x7f).toNat else 10 ^ v.toNat) < 2 ^ 64
  · rw [if_pos hfits]
    exact hticks
  · rw [if_neg hfits]
    exact Nat.succ_pos _

/-- Nor does the walk over the options ever leave one. -/
theorem idb_options_pos (buf : Bytes) (swapped : Bool) (body_end n o : ℕ) {tsresol : ℕ}
    (h : 0 < tsresol) : 0 < idb_options buf swapped body_end n o tsresol := by
  induction n generalizing o tsresol with
  | zero => exact h
  | succ n ih =>
    unfold idb_options
    split
    · split
      · split
        · exact h
        · split
          · exact h
          · apply ih
            split
            · cases buf[o + 4]? with
              | none => exact h
              | some v => exact decode_tsresol_pos v
            · exact h
      · exact h
    · exact h

/-- Whole units and less than one, the units in few digits. -/
theorem units_mod {q f n k : ℕ} (hf : f < k) : (q * k + f) % (n * k) = q % n * k + f := by
  rw [Nat.mul_comm n k, Nat.mod_mul, Nat.mul_add_mod_self_right, Nat.mod_eq_of_lt hf,
    Nat.mul_comm q k, Nat.mul_add_div (by omega), Nat.div_eq_of_lt hf, Nat.add_zero, Nat.mul_comm k,
    Nat.add_comm]

/-- **The two halves of a time are the floor of its ticks** at nanoseconds or microseconds, the
seconds in 32 bits. -/
theorem ticks_at_split {rec : Record} {ticks : ℕ} {iface : Iface} (hpos : 0 < iface.tsresol)
    (h : (rec.ts_sec, rec.ts_frac) = split_ts ticks iface.tsresol) :
    rec.ticks_at iface.nanos = ticks * resolution iface.nanos / iface.tsresol
      % (2 ^ 32 * resolution iface.nanos) := by
  obtain ⟨scale, hscale⟩ : ∃ n, n = resolution iface.nanos := ⟨_, rfl⟩
  have hrem : ticks % iface.tsresol < iface.tsresol := Nat.mod_lt _ hpos
  -- what is left of a second stays below one at the scale, so it never carries
  have hfrac : (split_ts ticks iface.tsresol).2.toNat = ticks % iface.tsresol * scale / iface.tsresol
      ∧ ticks % iface.tsresol * scale / iface.tsresol < scale := by
    have hlt : ticks % iface.tsresol * scale / iface.tsresol < scale := by
      rw [Nat.div_lt_iff_lt_mul hpos, Nat.mul_comm]
      refine Nat.mul_lt_mul_of_pos_left hrem ?_
      rw [hscale]
      rcases resolution_cases iface.nanos with h | h <;> rw [h] <;> decide
    refine ⟨?_, hlt⟩
    unfold split_ts
    rw [if_neg (Nat.pos_iff_ne_zero.1 hpos)]
    dsimp only
    rw [UInt32.toNat_ofNat']
    by_cases hnano : iface.tsresol = 1000000000
    · have hres : scale = 1000000000 := by
        rw [hscale, Iface.nanos, hnano]
        rfl
      rw [if_pos hnano, hres, hnano, Nat.mul_div_cancel _ (by decide), Nat.mod_eq_of_lt]
      omega
    · have hres : scale = 1000000 := by
        rw [hscale, Iface.nanos, beq_eq_false_iff_ne.2 hnano]
        rfl
      rw [hres] at hlt ⊢
      rw [if_neg hnano, Nat.mod_eq_of_lt]
      omega
  have hsec : (split_ts ticks iface.tsresol).1.toNat = ticks / iface.tsresol % 2 ^ 32 := by
    unfold split_ts
    rw [if_neg (Nat.pos_iff_ne_zero.1 hpos)]
    exact UInt32.toNat_ofNat'
  -- whole seconds and what is left of one are floored apart
  have hwhole : ticks * scale / iface.tsresol
      = ticks / iface.tsresol * scale + ticks % iface.tsresol * scale / iface.tsresol := by
    calc ticks * scale / iface.tsresol
        = (ticks % iface.tsresol * scale + iface.tsresol * (ticks / iface.tsresol * scale))
            / iface.tsresol := by
          congr 1
          conv_lhs => rw [← Nat.mod_add_div ticks iface.tsresol]
          rw [Nat.add_mul, Nat.mul_assoc]
      _ = ticks / iface.tsresol * scale + ticks % iface.tsresol * scale / iface.tsresol := by
          rw [Nat.add_mul_div_left _ _ hpos, Nat.add_comm]
  have hwrap : (ticks / iface.tsresol * scale + ticks % iface.tsresol * scale / iface.tsresol)
      % (2 ^ 32 * scale)
      = ticks / iface.tsresol % 2 ^ 32 * scale + ticks % iface.tsresol * scale / iface.tsresol :=
    units_mod hfrac.2
  have hts_sec : rec.ts_sec = (split_ts ticks iface.tsresol).1 := congrArg Prod.fst h
  have hts_frac : rec.ts_frac = (split_ts ticks iface.tsresol).2 := congrArg Prod.snd h
  unfold Record.ticks_at
  rw [← hscale, hwhole, hwrap, hts_sec, hts_frac, hsec, hfrac.1]

/-! ## What a block says of its packet -/

namespace Block

variable (swapped : Bool)

/-- The interface an interface block describes. -/
def described (b : Block) : Iface :=
  parse_idb (b.encode swapped) swapped 0 (b.encode swapped).length

/-- The interface a packet block names. A simple packet is on the first one of its section. -/
def on (ifaces : List Iface) (b : Block) : Option Iface :=
  if b.btype = BLOCK_EPB then (rd32 b.body 0 swapped).bind fun id => ifaces[id.toNat]?
  else if b.btype = BLOCK_PB then (rd16 b.body 0 swapped).bind fun id => ifaces[id.toNat]?
  else ifaces.head?

/-- The 64 bits of ticks a packet block holds, none in a simple one. -/
def ticks (b : Block) : Option ℕ :=
  if b.btype = BLOCK_EPB ∨ b.btype = BLOCK_PB then
    (rd32 b.body 4 swapped).bind fun hi =>
      (rd32 b.body 8 swapped).map fun lo => hi.toNat * 2 ^ 32 + lo.toNat
  else none

variable {swapped}

theorem described_pos (b : Block) : 0 < (b.described swapped).tsresol :=
  idb_options_pos _ _ _ _ _ (by decide)

theorem read_idb_block {b : Block} (h : b.btype = BLOCK_IDB) (ifaces : List Iface) :
    b.read swapped ifaces = .skip (ifaces ++ [b.described swapped]) := by
  unfold Block.read block_at
  rw [if_pos h]
  rfl

theorem rd16_body {b : Block} {o : ℕ} (h : o + 2 ≤ b.body.length) :
    rd16 (b.encode swapped) (8 + o) swapped = rd16 b.body o swapped := by
  have hwithin := rd16_within
    (word32 swapped b.btype ++ word32 swapped (UInt32.ofNat (12 + b.body.length)))
    (word32 swapped (UInt32.ofNat (12 + b.body.length))) h swapped
  rwa [List.length_append, length_word32, length_word32] at hwithin

/-- The interface id as `packet_at` reads it is the one the body holds. -/
theorem on_of_id {b : Block} (hpacket : b.btype = BLOCK_EPB ∨ b.btype = BLOCK_PB)
    (hbody : 20 ≤ b.body.length) {id : UInt32} {ifaces : List Iface}
    (h : (if b.btype = BLOCK_PB then (rd16 (b.encode swapped) 8 swapped).map UInt16.toUInt32
      else rd32 (b.encode swapped) 8 swapped) = some id) :
    b.on swapped ifaces = ifaces[id.toNat]? := by
  have h16 : rd16 (b.encode swapped) 8 swapped = rd16 b.body 0 swapped :=
    rd16_body (o := 0) (by omega)
  have h32 : rd32 (b.encode swapped) 8 swapped = rd32 b.body 0 swapped :=
    rd32_body (o := 0) (by omega)
  rw [h16, h32] at h
  unfold Block.on
  -- An enhanced block names its interface in a word, an obsolete one in half a word.
  rcases hpacket with hepb | hpb
  · have hnot : ¬b.btype = BLOCK_PB := by
      rw [hepb]
      decide
    rw [if_neg hnot] at h
    rw [if_pos hepb, h, Option.bind_some]
  · have hnot : ¬b.btype = BLOCK_EPB := by
      rw [hpb]
      decide
    rw [if_pos hpb] at h
    obtain ⟨v, hv, hid⟩ := Option.map_eq_some_iff.1 h
    rw [if_neg hnot, if_pos hpb, hv, Option.bind_some, ← hid, UInt16.toNat_toUInt32]

theorem on_mem {b : Block} {ifaces : List Iface} {iface : Iface}
    (h : b.on swapped ifaces = some iface) : iface ∈ ifaces := by
  unfold Block.on at h
  split at h
  · obtain ⟨id, _, hid⟩ := Option.bind_eq_some_iff.1 h
    exact List.mem_of_getElem? hid
  · split at h
    · obtain ⟨id, _, hid⟩ := Option.bind_eq_some_iff.1 h
      exact List.mem_of_getElem? hid
    · exact List.mem_of_head? h

/-- **A packet block's record is split at the resolution of the interface it names.** -/
theorem read_packet {b : Block} (hpacket : b.btype = BLOCK_EPB ∨ b.btype = BLOCK_PB)
    {ifaces : List Iface} {rec : Record} (h : b.read swapped ifaces = .yield rec) :
    ∃ iface ticks, b.on swapped ifaces = some iface ∧ b.ticks swapped = some ticks
      ∧ (rec.ts_sec, rec.ts_frac) = split_ts ticks iface.tsresol := by
  have hlen := b.length_encode swapped
  have hidb : ¬b.btype = BLOCK_IDB := by
    rcases hpacket with hb | hb <;> rw [hb] <;> decide
  unfold Block.read block_at at h
  rw [if_neg hidb, if_pos hpacket] at h
  unfold packet_at at h
  simp only [Nat.zero_add] at h
  split at h
  · exact absurd h Pass.noConfusion
  · have hbody : 20 ≤ b.body.length := by omega
    -- the words `packet_at` reads in the block are those of the body
    have hhi : rd32 (b.encode swapped) 12 swapped = rd32 b.body 4 swapped :=
      rd32_body (o := 4) (by omega)
    have hlo : rd32 (b.encode swapped) 16 swapped = rd32 b.body 8 swapped :=
      rd32_body (o := 8) (by omega)
    split at h
    · exact absurd h Pass.noConfusion
    · rename_i id hid
      have hon : b.on swapped ifaces = ifaces[id.toNat]? := on_of_id hpacket hbody hid
      split at h
      · exact absurd h Pass.noConfusion
      · rename_i hknown
        obtain ⟨iface, hiface⟩ := Option.ne_none_iff_exists'.1 hknown
        split at h
        · rename_i hi lo caplen origlen hreadhi hreadlo _ _
          split at h
          · exact absurd h Pass.noConfusion
          · split at h
            · exact absurd h Pass.noConfusion
            · rw [hhi] at hreadhi
              rw [hlo] at hreadlo
              refine ⟨iface, hi.toNat * 2 ^ 32 + lo.toNat, hon.trans hiface, ?_, ?_⟩
              · unfold Block.ticks
                rw [if_pos hpacket, hreadhi, hreadlo]
                rfl
              · rw [← Pass.yield.inj h, toNat_halves, tsresol_for, hiface]
                rfl
        · exact absurd h Pass.noConfusion

/-- A simple packet has no time. -/
theorem read_simple {b : Block} (hpacket : ¬(b.btype = BLOCK_EPB ∨ b.btype = BLOCK_PB))
    {ifaces : List Iface} {rec : Record} (h : b.read swapped ifaces = .yield rec) :
    b.ticks swapped = none ∧ rec.ts_sec = 0 ∧ rec.ts_frac = 0 := by
  refine ⟨if_neg hpacket, ?_⟩
  unfold Block.read block_at at h
  rw [if_neg hpacket] at h
  split at h
  · exact absurd h Pass.noConfusion
  · split at h
    · unfold simple_at at h
      split at h
      · exact absurd h Pass.noConfusion
      · split at h
        · exact absurd h Pass.noConfusion
        · dsimp only at h
          split at h
          · exact absurd h Pass.noConfusion
          · rw [← Pass.yield.inj h]
            exact ⟨rfl, rfl⟩
    · exact absurd h Pass.noConfusion

/-- Only an interface block adds to the interfaces. -/
theorem read_skip {b : Block} (hidb : b.btype ≠ BLOCK_IDB) {ifaces ifaces' : List Iface}
    (h : b.read swapped ifaces = .skip ifaces') : ifaces' = ifaces := by
  -- Along the branches of the block reader: only the two packet blocks are left, and neither
  -- describes an interface.
  unfold Block.read block_at at h
  rw [if_neg hidb] at h
  split at h
  · unfold packet_at at h
    split at h
    · exact absurd h Pass.noConfusion
    · dsimp only at h
      split at h
      · exact absurd h Pass.noConfusion
      · split at h
        · exact (Pass.skip.inj h).symm
        · split at h
          · split at h
            · exact absurd h Pass.noConfusion
            · split at h
              · exact absurd h Pass.noConfusion
              · exact absurd h Pass.noConfusion
          · exact absurd h Pass.noConfusion
  · split at h
    · unfold simple_at at h
      split at h
      · exact absurd h Pass.noConfusion
      · split at h
        · exact absurd h Pass.noConfusion
        · dsimp only at h
          split at h
          · exact absurd h Pass.noConfusion
          · exact absurd h Pass.noConfusion
    · exact (Pass.skip.inj h).symm

end Block

/-! ## Attribution -/

/-- A record, the interface it was captured on and the ticks its block holds. -/
structure Attributed where
  record : Record
  iface : Option Iface
  ticks : Option ℕ
deriving DecidableEq, Repr

/-- The records of a run of blocks under the interfaces described so far. -/
def attributed_of (swapped : Bool) : List Iface → List Block → List Attributed
  | _, [] => []
  | ifaces, b :: rest =>
    if b.btype = BLOCK_IDB then attributed_of swapped (ifaces ++ [b.described swapped]) rest
    else
      match b.read swapped ifaces with
      | .yield rec => ⟨rec, b.on swapped ifaces, b.ticks swapped⟩ :: attributed_of swapped ifaces rest
      | _ => attributed_of swapped ifaces rest

def Section.attributed (s : Section) : List Attributed := attributed_of s.swapped [] s.blocks

/-- The records of the sections a reader gets to. -/
def attributed (sections : List Section) : List Attributed :=
  (reached sections).flatMap Section.attributed

/-- Leaving the interfaces out of the attributed records gives the records the blocks hold. -/
theorem attributed_records {swapped : Bool} {blocks : List Block}
    (hwf : ∀ b ∈ blocks, b.WellFormed swapped) (ifaces : List Iface) :
    (attributed_of swapped ifaces blocks).map Attributed.record = read_blocks swapped ifaces blocks := by
  induction blocks generalizing ifaces with
  | nil => rfl
  | cons b blocks ih =>
    have hb := hwf b List.mem_cons_self
    have hrest := fun ifaces => ih (fun b' hb' => hwf b' (List.mem_cons_of_mem b hb')) ifaces
    unfold attributed_of read_blocks
    by_cases hidb : b.btype = BLOCK_IDB
    · rw [if_pos hidb, b.read_idb_block hidb]
      exact hrest _
    · rw [if_neg hidb]
      cases hread : b.read swapped ifaces with
      | stop => exact absurd hread (hb.not_stop ifaces)
      | skip ifaces' =>
        rw [b.read_skip hidb hread]
        exact hrest _
      | yield rec => exact congrArg (rec :: ·) (hrest ifaces)

/-- **The records a file of sections reads as are those attributed.** -/
theorem records_captured (sections : List Section) :
    (attributed sections).map Attributed.record = records (sections.flatMap Section.encode) := by
  have hone : ∀ s : Section, s.attributed.map Attributed.record = s.records :=
    fun s => attributed_records s.well_formed []
  rw [records_file, attributed, List.map_flatMap]
  exact congrArg (fun f => (reached sections).flatMap f) (funext hone)

/-- What an attributed record says of its time. -/
def Attributed.Timed (c : Attributed) : Prop :=
  (c.ticks = none ∧ c.record.ts_sec = 0 ∧ c.record.ts_frac = 0)
    ∨ ∃ iface ticks, c.iface = some iface ∧ c.ticks = some ticks
      ∧ c.record.ticks_at iface.nanos
        = ticks * resolution iface.nanos / iface.tsresol % (2 ^ 32 * resolution iface.nanos)

/-- **Every record is timed at the resolution of its own interface**, as long as those described
so far have one. -/
theorem attributed_of_timed {swapped : Bool} {blocks : List Block} {ifaces : List Iface}
    (hpos : ∀ iface ∈ ifaces, 0 < iface.tsresol) :
    ∀ c ∈ attributed_of swapped ifaces blocks, c.Timed := by
  induction blocks generalizing ifaces with
  | nil => exact nofun
  | cons b blocks ih =>
    unfold attributed_of
    split
    · apply ih
      intro iface hmem
      rcases List.mem_append.1 hmem with hold | hnew
      · exact hpos iface hold
      · rw [List.mem_singleton.1 hnew]
        exact b.described_pos
    · split
      · rename_i rec hread
        refine List.forall_mem_cons.2 ⟨?_, ih hpos⟩
        -- only packet blocks name an interface; a simple one has no ticks to split
        by_cases hpacket : b.btype = BLOCK_EPB ∨ b.btype = BLOCK_PB
        · obtain ⟨iface, ticks, hon, hticks, hsplit⟩ := b.read_packet hpacket hread
          have hmem : iface ∈ ifaces := b.on_mem hon
          exact .inr ⟨iface, ticks, hon, hticks, ticks_at_split (hpos iface hmem) hsplit⟩
        · exact .inl (b.read_simple hpacket hread)
      · exact ih hpos

theorem attributed_timed (sections : List Section) : ∀ c ∈ attributed sections, c.Timed := by
  intro c hc
  obtain ⟨s, _, hmem⟩ := List.mem_flatMap.1 hc
  exact attributed_of_timed (fun _ h => absurd h List.not_mem_nil) c hmem

/-! ## The file's header -/

/-- **The header of a file that starts with an interface is that interface's.** -/
theorem new_header {s : Section} (rest : Bytes) {b : Block} {blocks : List Block}
    (hblocks : s.blocks = b :: blocks) (hidb : b.btype = BLOCK_IDB) :
    ∃ r, Reader.new (s.encode ++ rest) = .ok r
      ∧ r.header.linktype = (b.described s.swapped).linktype
      ∧ r.header.tsresol = (b.described s.swapped).tsresol := by
  obtain ⟨file, hfile⟩ : ∃ file, file = s.encode ++ rest := ⟨_, rfl⟩
  obtain ⟨r, hnew, -, hswapped, hifaces, hat⟩ := new_encode hfile
  have hhere : file = s.header.encode s.swapped ++ b.encode s.swapped
      ++ (blocks.flatMap (Block.encode s.swapped) ++ rest) := by
    rw [hfile, Section.encode, Section.body, hblocks, List.flatMap_cons]
    simp only [List.append_assoc]
  have hlen := b.length_encode s.swapped
  have hend : (s.header.encode s.swapped).length + (b.encode s.swapped).length ≤ r.end_ := by
    rw [hat.end_eq, hfile, Section.encode, Section.body, hblocks, List.flatMap_cons]
    simp only [List.length_append]
    split <;> omega
  -- the reader stands behind the section header, where the interface block starts
  have hblock : read_block_at r.buf r.swapped r.end_ r.off
      = some (BLOCK_IDB, (b.encode s.swapped).length) := by
    rw [hat.buf_eq, hat.off_eq, hswapped, read_block_at_encode hhere hend, hidb]
  have hparse : parse_idb r.buf r.swapped r.off (b.encode s.swapped).length
      = b.described s.swapped := by
    rw [hat.buf_eq, hat.off_eq, hswapped, hhere]
    exact parse_idb_within _ _ _ _ (by omega)
  obtain ⟨-, -, more, hmore⟩ := Reader.lead_spec
    { r with
      off := r.off + (b.encode s.swapped).length
      ifaces := r.ifaces ++ [parse_idb r.buf r.swapped r.off (b.encode s.swapped).length] } hat.going
  rw [← Reader.lead_of_idb hblock, hparse, hifaces, List.nil_append] at hmore
  rw [← hfile]
  refine ⟨r.lead.adopt, hnew, ?_⟩
  unfold Reader.adopt
  rw [hmore]
  exact ⟨rfl, rfl⟩

/-- **The header names the interface a file starts with, and every record is timed at its own**:
at nanoseconds where that interface counts exactly those, at microseconds otherwise. -/
theorem records_attributed (s : Section) (sections : List Section) :
    ∃ r, Reader.new ((s :: sections).flatMap Section.encode) = .ok r
      ∧ r.collect = (attributed (s :: sections)).map Attributed.record
      ∧ (∀ c ∈ attributed (s :: sections), c.Timed)
      ∧ ∀ b blocks, s.blocks = b :: blocks → b.btype = BLOCK_IDB →
        r.header.linktype = (b.described s.swapped).linktype
        ∧ r.header.nanos = (b.described s.swapped).nanos
        ∧ ∀ c ∈ attributed (s :: sections), ∀ iface, c.iface = some iface →
          iface.nanos = (b.described s.swapped).nanos → ∀ ticks, c.ticks = some ticks →
            c.record.ticks_at r.header.nanos
              = ticks * resolution r.header.nanos / iface.tsresol
                % (2 ^ 32 * resolution r.header.nanos) := by
  obtain ⟨r, hnew, -⟩ := new_encode
    (show s.encode ++ sections.flatMap Section.encode = _ from rfl)
  -- The records are those of the sections; what is added is whose they are.
  have hrecords := records_captured (s :: sections)
  rw [records, List.flatMap_cons, hnew] at hrecords
  rw [List.flatMap_cons]
  refine ⟨r.lead.adopt, hnew, hrecords.symm, attributed_timed _, ?_⟩
  intro b blocks hblocks hidb
  obtain ⟨r', hnew', hlink, hres⟩ :=
    new_header (sections.flatMap Section.encode) hblocks hidb
  rw [hnew, Except.ok.injEq] at hnew'
  subst hnew'
  have hnanos : r.lead.adopt.header.nanos = (b.described s.swapped).nanos := by
    rw [FileHeader.nanos, hres, Iface.nanos]
  refine ⟨hlink, hnanos, fun c hc iface hiface hsame ticks hticks => ?_⟩
  rw [hnanos, ← hsame]
  -- A record without ticks of its own is a simple packet; any other has its interface's.
  rcases attributed_timed _ c hc with ⟨hnone, -⟩ | ⟨own, held, hown, hheld, htime⟩
  · rw [hnone] at hticks
    exact absurd hticks (Option.some_ne_none _).symm
  · rw [hown, Option.some.injEq] at hiface
    rw [hheld, Option.some.injEq] at hticks
    rw [← hiface, ← hticks]
    exact htime

/-- A raw-IP interface. -/
def raw_idb : Block where
  btype := BLOCK_IDB
  body := [101, 0, 0, 0, 0xff, 0xff, 0, 0]
  aligned := rfl
  small := by decide

/-- A packet of four octets on the second interface. -/
def second_epb : Block where
  btype := BLOCK_EPB
  body := [1, 0, 0, 0, 0, 0, 0, 0, 7, 0, 0, 0, 4, 0, 0, 0, 4, 0, 0, 0, 1, 2, 3, 4]
  aligned := rfl
  small := by decide

/-- The blocks of the witness are well formed. -/
theorem mixed_blocks_well_formed : ∀ b ∈ [sample_idb, raw_idb, second_epb], b.WellFormed false := by
  have hidb := sample_blocks_well_formed sample_idb List.mem_cons_self
  have hraw : raw_idb.WellFormed false :=
    ⟨by decide, fun h => absurd h (by decide), fun h => absurd h (by decide)⟩
  have hcap : rd32 second_epb.body 12 false = some 4 := by decide
  have hepb : second_epb.WellFormed false := by
    refine ⟨by decide, fun _ => ⟨by decide, fun caplen h => ?_⟩, fun h => absurd h (by decide)⟩
    rw [hcap] at h
    rw [← Option.some.inj h]
    decide
  exact List.forall_mem_cons.2
    ⟨hidb, List.forall_mem_cons.2 ⟨hraw, List.forall_mem_cons.2 ⟨hepb, nofun⟩⟩⟩

/-- An Ethernet interface, a raw-IP one, and a packet on that. -/
def mixed_section : Section where
  swapped := false
  declares := false
  version := [1, 0, 0, 0]
  options := []
  blocks := [sample_idb, raw_idb, second_epb]
  length_version := length_version_one
  aligned := no_options_aligned
  small := no_options_small
  well_formed := mixed_blocks_well_formed
  extent_lt h := absurd h (by decide)

/-- **One header does not speak for two link types**: a packet on the second interface is reported
under the link type of the first. -/
theorem second_link_type_unreported :
    ¬∀ (s : Section) (sections : List Section) (r : Reader),
      Reader.new ((s :: sections).flatMap Section.encode) = .ok r →
      ∀ c ∈ attributed (s :: sections), ∀ iface, c.iface = some iface →
        r.header.linktype = iface.linktype
        ∧ ∀ ticks, c.ticks = some ticks →
          c.record.ticks_at r.header.nanos = ticks * resolution r.header.nanos / iface.tsresol := by
  intro h
  obtain ⟨r, hnew, hlink, -⟩ := new_header [] (show mixed_section.blocks = _ from rfl) rfl
  -- the packet is on the raw-IP interface, the header speaks for the Ethernet one
  have hone : attributed [mixed_section]
      = [⟨⟨0, 7, 4, 4, [1, 2, 3, 4]⟩, some ⟨101, 1000000⟩, some 7⟩] := by decide +kernel
  have hmem := hone ▸ List.mem_cons_self
  have hbad := (h mixed_section [] r hnew _ hmem ⟨101, 1000000⟩ rfl).1
  rw [hlink] at hbad
  exact absurd hbad (by decide +kernel)

end Pcapng

end Wiry.Capture
