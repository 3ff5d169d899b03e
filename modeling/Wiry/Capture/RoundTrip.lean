/-
What the writers of `pcap.rs` and `pcapng.rs` produce, read back.

A record is one either format can hold: `Captured` carries that its fraction of a
second is below the resolution and that its data fits a block.
-/
import Wiry.Capture.Sections

set_option autoImplicit false

namespace Wiry.Capture

open Packet Endian Pcapng

/-- Ticks a second. -/
def resolution (nanos : Bool) : ℕ := if nanos then 1000000000 else DEFAULT_TSRESOL

/-- A record a capture of this resolution can hold. -/
structure Captured (nanos : Bool) extends Pcap.Written where
  frac_lt : ts_frac.toNat < resolution nanos
  data_le : data.length ≤ MAX_CAPLEN

theorem resolution_cases (nanos : Bool) : resolution nanos = 1000000000 ∨ resolution nanos = 1000000 := by
  cases nanos
  · exact .inr rfl
  · exact .inl rfl

/-! ## Blocks as they are written -/

/-- A body with its padding. -/
def padded (body : Bytes) : Bytes := body ++ List.replicate (pad4 body.length - body.length) 0

theorem length_padded (body : Bytes) : (padded body).length = pad4 body.length := by
  have hpad := le_pad4 body.length
  rw [padded, List.length_append, List.length_replicate]
  omega

/-- The block `write_block` writes. -/
def block_of (btype : UInt32) (body : Bytes) (h : 12 + pad4 body.length < 2 ^ 32) : Block where
  btype := btype
  body := padded body
  aligned := by
    rw [length_padded, pad4]
    omega
  small := by rwa [length_padded]

theorem write_block_eq (btype : UInt32) (body : Bytes) (h : 12 + pad4 body.length < 2 ^ 32) :
    write_block btype body = (block_of btype body h).encode false := by
  show _ = le32 btype ++ le32 (UInt32.ofNat (12 + (padded body).length)) ++ padded body ++
    le32 (UInt32.ofNat (12 + (padded body).length))
  rw [length_padded, padded, write_block]
  simp only [List.append_assoc]

/-! ### The interface -/

/-- The body of the interface block. -/
def idb_body (link : UInt16) (snaplen : UInt32) (nanos : Bool) : Bytes :=
  le16 link ++ le16 0 ++ le32 snaplen ++
    if nanos then le16 OPT_IF_TSRESOL ++ le16 1 ++ [9, 0, 0, 0] ++ le16 OPT_END ++ le16 0 else []

theorem length_idb_body (link : UInt16) (snaplen : UInt32) (nanos : Bool) :
    (idb_body link snaplen nanos).length = if nanos then 20 else 8 := by
  cases nanos <;> rfl

def idb (link : UInt16) (snaplen : UInt32) (nanos : Bool) : Block :=
  block_of BLOCK_IDB (idb_body link snaplen nanos) (by rw [length_idb_body]; cases nanos <;> decide)

/-- Its interface block too. -/
theorem write_idb_eq (link : UInt16) (snaplen : UInt32) (nanos : Bool) :
    write_idb link.toUInt32 snaplen nanos = (idb link snaplen nanos).encode false := by
  have hlink : link.toUInt32.toUInt16 = link := by
    apply UInt16.toNat_inj.1
    rw [UInt32.toNat_toUInt16, UInt16.toNat_toUInt32, Nat.mod_eq_of_lt link.toNat_lt]
  rw [idb, ← write_block_eq, write_idb, idb_body, hlink]

/-- What the reader makes of the interface block. -/
theorem parse_idb_written (link : UInt16) (snaplen : UInt32) (nanos : Bool) :
    parse_idb ((idb link snaplen nanos).encode false) false 0
        ((idb link snaplen nanos).encode false).length =
      ⟨link.toUInt32, resolution nanos⟩ := by
  obtain ⟨total, htotal⟩ : ∃ t, t = UInt32.ofNat (12 + (idb link snaplen nanos).body.length) :=
    ⟨_, rfl⟩
  obtain ⟨opts, hopts⟩ : ∃ o : Bytes, o = if nanos then
      le16 OPT_IF_TSRESOL ++ le16 1 ++ [9, 0, 0, 0] ++ le16 OPT_END ++ le16 0 else [] := ⟨_, rfl⟩
  -- The options are twelve octets or none, by the resolution.
  have hlopts : opts.length = if nanos then 12 else 0 := by
    rw [hopts]
    cases nanos <;> rfl
  have hbody : (idb link snaplen nanos).body = le16 link ++ le16 0 ++ le32 snaplen ++ opts := by
    have hfull : pad4 (idb_body link snaplen nanos).length - (idb_body link snaplen nanos).length = 0 := by
      rw [length_idb_body]
      cases nanos <;> rfl
    show padded _ = _
    rw [padded, hfull, List.replicate_zero, List.append_nil, idb_body, hopts]
  have hlen : (idb link snaplen nanos).body.length = 8 + opts.length := by
    rw [hbody]
    simp only [List.length_append, length_le16, length_le32]
  -- The block as its words in a row.
  have hencode : (idb link snaplen nanos).encode false =
      le32 BLOCK_IDB ++ le32 total ++ le16 link ++ (le16 0 ++ le32 snaplen ++ opts ++ le32 total) := by
    rw [Block.encode, ← htotal, hbody]
    simp only [word32, Bool.false_eq_true, if_false, List.append_assoc]
    rfl
  have hlink : rd16 ((idb link snaplen nanos).encode false) 8 false = some link :=
    rd16_word (le32 BLOCK_IDB ++ le32 total) (le16 0 ++ le32 snaplen ++ opts ++ le32 total) hencode
      (by rw [List.length_append, length_le32, length_le32])
  -- The walk over the options does not see the words in front of them.
  have hwithin := idb_options_within
    (le32 BLOCK_IDB ++ le32 total ++ le16 link ++ le16 0 ++ le32 snaplen) opts (le32 total) false
    le_rfl (12 + (8 + opts.length)) 0 DEFAULT_TSRESOL
  have hread : idb_options opts false opts.length (12 + (8 + opts.length)) 0 DEFAULT_TSRESOL =
      resolution nanos := by
    rw [hopts]
    cases nanos <;> decide
  have hpre : (le32 BLOCK_IDB ++ le32 total ++ le16 link ++ le16 0 ++ le32 snaplen).length = 16 := by
    simp only [List.length_append, length_le16, length_le32]
  have hsame : (idb link snaplen nanos).encode false = le32 BLOCK_IDB ++ le32 total ++ le16 link ++
      le16 0 ++ le32 snaplen ++ opts ++ le32 total := by
    rw [hencode]
    simp only [List.append_assoc]
  rw [hpre, hread, ← hsame] at hwithin
  unfold parse_idb
  rw [Nat.zero_add, hlink, Block.length_encode, hlen, Nat.zero_add, Nat.zero_add,
    show 12 + (8 + opts.length) - 4 = 16 + opts.length from by omega, hwithin]
  rfl

/-! ### A packet -/

section Packet

variable {nanos : Bool} (w : Captured nanos)

/-- A timestamp in ticks. -/
def Captured.ticks : ℕ := w.ts_sec.toNat * resolution nanos + w.ts_frac.toNat

theorem Captured.ticks_lt : w.ticks < 2 ^ 64 := by
  have hsec := w.ts_sec.toNat_lt
  have hfrac := w.frac_lt
  unfold ticks
  rcases resolution_cases nanos with h | h <;> rw [h] at hfrac ⊢ <;> omega

/-- The words before a packet's data. -/
def epb_words : Bytes :=
  le32 0 ++ le32 (UInt32.ofNat (w.ticks / 2 ^ 32)) ++ le32 (UInt32.ofNat w.ticks) ++
    le32 (UInt32.ofNat w.data.length) ++ le32 (max w.origlen (UInt32.ofNat w.data.length))

@[simp] theorem length_epb_words : (epb_words w).length = 20 := by
  simp only [epb_words, List.length_append, length_le32]

theorem length_epb_body : (epb_words w ++ w.data).length = 20 + w.data.length := by
  rw [List.length_append, length_epb_words]

/-- `MAX_CAPLEN` leaves room for the rest of the block. -/
theorem epb_small : 12 + pad4 (epb_words w ++ w.data).length < 2 ^ 32 := by
  have hdata := w.data_le
  have hmax : MAX_CAPLEN = 4294967256 := rfl
  rw [length_epb_body, pad4]
  omega

def epb : Block := block_of BLOCK_EPB (epb_words w ++ w.data) (epb_small w)

theorem Captured.toNat_caplen : (UInt32.ofNat w.data.length).toNat = w.data.length := by
  have hdata := w.data_le
  have hmax : MAX_CAPLEN = 4294967256 := rfl
  rw [UInt32.toNat_ofNat', Nat.mod_eq_of_lt (by omega)]

/-- And its packet block. -/
theorem write_epb_eq :
    write_epb 0 w.ts_sec w.ts_frac w.data w.origlen nanos = (epb w).encode false := by
  have hticks := w.ticks_lt
  have hres : (if nanos then 1000000000 else DEFAULT_TSRESOL) = resolution nanos := rfl
  unfold Captured.ticks at hticks
  rw [epb, ← write_block_eq, write_epb]
  rw [hres, Nat.min_eq_left w.data_le, List.take_length,
    Nat.min_eq_left (show w.ts_sec.toNat * resolution nanos ≤ 2 ^ 64 - 1 by omega),
    Nat.min_eq_left (show _ + w.ts_frac.toNat ≤ 2 ^ 64 - 1 by omega), epb_words, Captured.ticks]

/-- A timestamp is what its ticks are split into. -/
theorem split_ts_ticks : split_ts w.ticks (resolution nanos) = (w.ts_sec, w.ts_frac) := by
  have hfrac := w.frac_lt
  have hsec := w.ts_sec.toNat_lt
  have hres := resolution_cases nanos
  have hquot : w.ticks / resolution nanos = w.ts_sec.toNat := by
    rw [Captured.ticks, Nat.add_comm, Nat.add_mul_div_right _ _ (by omega), Nat.div_eq_of_lt hfrac,
      Nat.zero_add]
  have hrem : w.ticks % resolution nanos = w.ts_frac.toNat := by
    rw [Captured.ticks, Nat.add_comm, Nat.add_mul_mod_self_right, Nat.mod_eq_of_lt hfrac]
  unfold split_ts
  rw [if_neg (by omega)]
  dsimp only
  rw [hquot, hrem, UInt32.ofNat_toNat]
  rcases hres with h | h
  · rw [if_pos h, UInt32.ofNat_toNat]
  · rw [if_neg (by omega), h, Nat.mul_div_cancel _ (by omega), UInt32.ofNat_toNat]

/-- The words of a packet block, where the reader looks for them. -/
theorem rd32_epb (pre rest : Bytes) {v : UInt32} {o : ℕ}
    (hwords : epb_words w = pre ++ le32 v ++ rest) (ho : o = 8 + pre.length) :
    rd32 ((epb w).encode false) o false = some v := by
  obtain ⟨fill, hfill⟩ : ∃ fill, (epb w).body = epb_words w ++ w.data ++ fill := ⟨_, rfl⟩
  refine rd32_word (word32 false BLOCK_EPB ++
    word32 false (UInt32.ofNat (12 + (epb w).body.length)) ++ pre)
    (rest ++ w.data ++ fill ++ word32 false (UInt32.ofNat (12 + (epb w).body.length))) ?_ ?_
  · rw [Block.encode]
    generalize word32 false (UInt32.ofNat (12 + (epb w).body.length)) = total
    rw [hfill, hwords]
    simp only [List.append_assoc]
    rfl
  · simp only [List.length_append, length_word32, ho]

theorem length_epb : ((epb w).encode false).length = 32 + pad4 w.data.length := by
  rw [Block.length_encode]
  show 12 + (padded _).length = _
  rw [length_padded, length_epb_body, pad4, pad4]
  omega

/-- **A packet block reads as the packet it was written for.** -/
theorem read_epb (iface : Iface) (hres : iface.tsresol = resolution nanos) :
    (epb w).read false [iface] = .yield w.toWritten.record := by
  have hpad := le_pad4 w.data.length
  have hlen := length_epb w
  have hticks := w.ticks_lt
  -- The words of the block by name; the padding is whatever fills it up.
  obtain ⟨fill, hfill⟩ : ∃ fill, (epb w).body = epb_words w ++ w.data ++ fill := ⟨_, rfl⟩
  obtain ⟨hi, hhi⟩ : ∃ v, v = UInt32.ofNat (w.ticks / 2 ^ 32) := ⟨_, rfl⟩
  obtain ⟨lo, hlo⟩ : ∃ v, v = UInt32.ofNat w.ticks := ⟨_, rfl⟩
  obtain ⟨cap, hcap⟩ : ∃ v, v = UInt32.ofNat w.data.length := ⟨_, rfl⟩
  have hwords : epb_words w = le32 0 ++ le32 hi ++ le32 lo ++ le32 cap ++ le32 (max w.origlen cap) := by
    rw [epb_words, hhi, hlo, hcap]
  have hid : rd32 ((epb w).encode false) 8 false = some 0 :=
    rd32_epb w [] (le32 hi ++ le32 lo ++ le32 cap ++ le32 (max w.origlen cap))
      (by rw [hwords, List.nil_append]; simp only [List.append_assoc]) rfl
  have hhigh : rd32 ((epb w).encode false) 12 false = some hi :=
    rd32_epb w (le32 0) (le32 lo ++ le32 cap ++ le32 (max w.origlen cap))
      (by rw [hwords]; simp only [List.append_assoc]) (by rw [length_le32])
  have hlow : rd32 ((epb w).encode false) 16 false = some lo :=
    rd32_epb w (le32 0 ++ le32 hi) (le32 cap ++ le32 (max w.origlen cap))
      (by rw [hwords]; simp only [List.append_assoc])
      (by simp only [List.length_append, length_le32])
  have hcaplen : rd32 ((epb w).encode false) 20 false = some cap :=
    rd32_epb w (le32 0 ++ le32 hi ++ le32 lo) (le32 (max w.origlen cap)) hwords
      (by simp only [List.length_append, length_le32])
  have horig : rd32 ((epb w).encode false) 24 false = some (max w.origlen cap) :=
    rd32_epb w (le32 0 ++ le32 hi ++ le32 lo ++ le32 cap) [] (by rw [hwords, List.append_nil])
      (by simp only [List.length_append, length_le32])
  have hn : cap.toNat = w.data.length := hcap ▸ w.toNat_caplen
  -- The data lie behind the five words.
  have hdata : slice_checked ((epb w).encode false) 28 (28 + w.data.length) = some w.data := by
    obtain ⟨total, htotal⟩ : ∃ t, t = UInt32.ofNat (12 + (epb w).body.length) := ⟨_, rfl⟩
    have hencode : (epb w).encode false =
        (word32 false BLOCK_EPB ++ word32 false total ++ epb_words w) ++ w.data ++
          (fill ++ word32 false total) := by
      rw [Block.encode, ← htotal, hfill]
      simp only [List.append_assoc]
      rfl
    have hpre : (word32 false BLOCK_EPB ++ word32 false total ++ epb_words w).length = 28 := by
      simp only [List.length_append, length_word32, length_epb_words]
    rw [hencode]
    exact slice_checked_middle _ _ _ hpre.symm (by rw [hpre])
  -- The two halves of the time are joined to the ticks again.
  have hjoin : (hi.toUInt64 <<< 32 ||| lo.toUInt64).toNat = w.ticks := by
    rw [toNat_halves, hhi, hlo, UInt32.toNat_ofNat', UInt32.toNat_ofNat', Nat.mod_eq_of_lt (by omega)]
    omega
  have hother : BLOCK_EPB ≠ BLOCK_IDB ∧ BLOCK_EPB ≠ BLOCK_PB := by decide
  have hiface : [iface][(0 : UInt32).toNat]? = some iface := rfl
  -- The branches of the reader in order: an enhanced packet, its interface known, its words read.
  show block_at _ false [iface] _ BLOCK_EPB 0 _ = _
  unfold block_at packet_at
  simp only [Nat.zero_add]
  rw [if_neg hother.1, if_pos (Or.inl trivial), if_neg (by omega), if_neg hother.2, hid]
  dsimp only
  rw [if_neg (by rw [hiface]; exact Option.some_ne_none _), hhigh, hlow, hcaplen, horig]
  dsimp only
  rw [hn, if_neg (by omega), hdata]
  dsimp only
  rw [hjoin, tsresol_for, hiface, Option.map_some, Option.getD_some, hres, split_ts_ticks, hcap]
  rfl

/-- The enhanced packet block the writer makes of a record is well formed. -/
theorem epb_well_formed : (epb w).WellFormed false := by
  have hpad : pad4 (20 + w.data.length) = 20 + pad4 w.data.length := by
    unfold pad4
    omega
  have hlen : (epb w).body.length = 20 + pad4 w.data.length := by
    have henc := length_epb w
    rw [Block.length_encode] at henc
    omega
  have htype : (epb w).btype = BLOCK_EPB := rfl
  refine ⟨by rw [htype]; decide, fun _ => ⟨by omega, fun caplen h => ?_⟩, fun h => ?_⟩
  swap
  · rw [htype] at h
    exact absurd h (by decide)
  have hcap : rd32 ((epb w).encode false) (8 + 12) false = some (UInt32.ofNat w.data.length) :=
    rd32_epb w (le32 0 ++ le32 (UInt32.ofNat (w.ticks / 2 ^ 32)) ++ le32 (UInt32.ofNat w.ticks))
      (le32 (max w.origlen (UInt32.ofNat w.data.length)))
      rfl (by simp only [List.length_append, length_le32])
  rw [rd32_body (by omega), h] at hcap
  rw [Option.some.inj hcap, w.toNat_caplen]
  omega

end Packet

/-! ## Files -/

/-- A file with one interface and these packets. -/
def Pcapng.write_file (link : UInt16) (snaplen : UInt32) (nanos : Bool) (recs : List Pcap.Written) :
    Bytes :=
  write_shb ++ write_idb link.toUInt32 snaplen nanos ++
    recs.flatMap fun w => write_epb 0 w.ts_sec w.ts_frac w.data w.origlen nanos

theorem idb_well_formed (link : UInt16) (snaplen : UInt32) (nanos : Bool) :
    (idb link snaplen nanos).WellFormed false := by
  have htype : (idb link snaplen nanos).btype = BLOCK_IDB := rfl
  refine ⟨by rw [htype]; decide, fun h => ?_, fun h => ?_⟩
  · rw [htype] at h
    exact absurd h (by decide)
  · rw [htype] at h
    exact absurd h (by decide)

/-- The one section of such a file. -/
def written_section (link : UInt16) (snaplen : UInt32) {nanos : Bool} (recs : List (Captured nanos)) :
    Section where
  swapped := false
  declares := false
  version := le16 1 ++ le16 0
  options := []
  blocks := idb link snaplen nanos :: recs.map epb
  length_version := rfl
  aligned := no_options_aligned
  small := no_options_small
  well_formed := by
    refine List.forall_mem_cons.2 ⟨idb_well_formed link snaplen nanos, fun b hb => ?_⟩
    obtain ⟨w, -, rfl⟩ := List.mem_map.1 hb
    exact epb_well_formed w
  extent_lt h := absurd h Bool.false_ne_true

section File

variable (link : UInt16) (snaplen : UInt32) {nanos : Bool} (recs : List (Captured nanos))

/-- The records of a file as blocks. -/
theorem flatMap_write_epb :
    (recs.map Captured.toWritten).flatMap (fun w => write_epb 0 w.ts_sec w.ts_frac w.data w.origlen nanos) =
      (recs.map epb).flatMap (Block.encode false) := by
  rw [List.flatMap_map, List.flatMap_map]
  exact congrArg (fun f => recs.flatMap f) (funext write_epb_eq)

/-- What the writers produce is that section. -/
theorem write_file_eq :
    Pcapng.write_file link snaplen nanos (recs.map Captured.toWritten) =
      (written_section link snaplen recs).encode := by
  have hshb : write_shb =
      (written_section link snaplen recs).header.encode false := by
    rw [write_shb, Block.encode]
    rfl
  rw [Pcapng.write_file, write_idb_eq, flatMap_write_epb, hshb, Section.encode, Section.body,
    List.append_assoc]
  exact congrArg _ List.flatMap_cons.symm

theorem read_blocks_epb (iface : Iface) (hres : iface.tsresol = resolution nanos) :
    read_blocks false [iface] (recs.map epb) = recs.map fun w => w.toWritten.record := by
  induction recs with
  | nil => rfl
  | cons w recs ih =>
    rw [List.map_cons, List.map_cons, read_blocks, read_epb w iface hres]
    exact congrArg _ ih

/-- The interface block is remembered. -/
theorem read_idb : (idb link snaplen nanos).read false [] = .skip [⟨link.toUInt32, resolution nanos⟩] := by
  rw [← parse_idb_written link snaplen nanos]
  show block_at _ _ _ _ BLOCK_IDB 0 _ = _
  rw [block_at, if_pos rfl, List.nil_append]

theorem records_written :
    (written_section link snaplen recs).records = recs.map fun w => w.toWritten.record := by
  show read_blocks false [] (idb link snaplen nanos :: recs.map epb) = _
  rw [read_blocks, read_idb]
  exact read_blocks_epb recs _ rfl

/-- Entering a section says nothing about the file's header. -/
theorem enter_section_header {r r' : Reader} {off : ℕ} (h : r.enter_section off = some r') :
    r'.header = r.header := by
  unfold Reader.enter_section at h
  split at h
  · exact absurd h (Option.some_ne_none _).symm
  · split at h
    · exact absurd h (Option.some_ne_none _).symm
    · split at h
      · exact absurd h (Option.some_ne_none _).symm
      · split at h
        · exact absurd h (Option.some_ne_none _).symm
        · rw [← Option.some.inj h]

/-- **A pcapng file reads back what was written to it**, its header from the interface block. -/
theorem Pcapng.read_written :
    ∃ r, Reader.new (Pcapng.write_file link snaplen nanos (recs.map Captured.toWritten)) = .ok r ∧
      r.header.linktype = link.toUInt32 ∧ r.header.nanos = nanos ∧
      r.collect = recs.map fun w => w.toWritten.record := by
  obtain ⟨s, hs⟩ : ∃ s, s = written_section link snaplen recs := ⟨_, rfl⟩
  obtain ⟨file, hfile⟩ : ∃ file, file = s.encode := ⟨_, rfl⟩
  obtain ⟨r, hnew, henter, hswapped, hifaces, hat⟩ :=
    new_encode (show file = s.encode ++ [] from hfile.trans (List.append_nil _).symm)
  have hrecords : records file = recs.map fun w => w.toWritten.record := by
    rw [hfile, records_encode, hs, records_written]
  rw [write_file_eq, ← hs, ← hfile]
  refine ⟨r.lead.adopt, hnew, ?_⟩
  have hcollect : r.lead.adopt.collect = recs.map fun w => w.toWritten.record := by
    rw [← hrecords, records, hnew]
  -- the reader stands on the interface block
  obtain ⟨tail, htail⟩ : ∃ tail, tail = (recs.map epb).flatMap (Block.encode false) := ⟨_, rfl⟩
  have hswap : s.swapped = false := by rw [hs]; rfl
  have hbuf : r.buf = s.header.encode false ++ (idb link snaplen nanos).encode false ++ tail := by
    rw [hat.buf_eq, hfile, Section.encode, Section.body, hswap, htail, List.append_assoc, hs]
    exact congrArg _ List.flatMap_cons
  have hend : r.end_ = r.buf.length := by
    have hdeclares : s.declares = false := by rw [hs]; rfl
    rw [hat.end_eq, hdeclares, hat.buf_eq]
    rfl
  have hoff : r.off = (s.header.encode false).length := by
    rw [hat.off_eq, hswap]
  have hblock : read_block_at r.buf r.swapped r.end_ r.off =
      some (BLOCK_IDB, ((idb link snaplen nanos).encode false).length) := by
    rw [hswapped, hswap, hoff]
    apply read_block_at_encode hbuf
    rw [hend, hbuf, List.length_append, List.length_append]
    omega
  have hiface : parse_idb r.buf r.swapped r.off ((idb link snaplen nanos).encode false).length =
      ⟨link.toUInt32, resolution nanos⟩ := by
    rw [hbuf, hswapped, hswap, hoff, parse_idb_within _ _ _ _ (by rw [Block.length_encode]; omega)]
    exact parse_idb_written link snaplen nanos
  obtain ⟨-, -, more, hmore⟩ := Reader.lead_spec
    { r with
      off := r.off + ((idb link snaplen nanos).encode false).length
      ifaces := r.ifaces ++ [parse_idb r.buf r.swapped r.off
        ((idb link snaplen nanos).encode false).length] } hat.going
  rw [← Reader.lead_of_idb hblock, hifaces, hiface] at hmore
  have hhead : r.lead.ifaces.head? = some ⟨link.toUInt32, resolution nanos⟩ := by
    rw [hmore]
    rfl
  have hadopt : r.lead.adopt = { r.lead with
      header := { r.lead.header with linktype := link.toUInt32, tsresol := resolution nanos } } := by
    unfold Reader.adopt
    rw [hhead]
  refine ⟨by rw [hadopt], ?_, hcollect⟩
  rw [hadopt]
  show (resolution nanos == 1000000000) = nanos
  cases nanos <;> rfl

end File

/-- **Captures read back what was written to them**: in a pcap file of either byte order, and in a
pcapng file, at either resolution. -/
theorem captures_read_back (link : UInt16) (snaplen : UInt32) (nanos : Bool)
    (recs : List (Captured nanos)) :
    (∀ swapped, ∃ r,
      Pcap.Reader.new (Pcap.write_file swapped link.toUInt32 snaplen nanos (recs.map Captured.toWritten)) =
        .ok r ∧ r.header.linktype = link.toUInt32 ∧ r.header.nanos = nanos ∧
      r.collect = recs.map fun w => w.toWritten.record) ∧
    ∃ r, Reader.new (Pcapng.write_file link snaplen nanos (recs.map Captured.toWritten)) = .ok r ∧
      r.header.linktype = link.toUInt32 ∧ r.header.nanos = nanos ∧
      r.collect = recs.map fun w => w.toWritten.record := by
  refine ⟨fun swapped => ?_, Pcapng.read_written link snaplen recs⟩
  have hdata : ∀ w ∈ recs.map Captured.toWritten, w.data.length < 2 ^ 32 := by
    intro w hw
    obtain ⟨c, -, rfl⟩ := List.mem_map.1 hw
    have hle := c.data_le
    have hmax : MAX_CAPLEN = 4294967256 := rfl
    omega
  obtain ⟨r, hnew, hheader, hcollect⟩ := Pcap.read_written swapped link.toUInt32 snaplen nanos hdata
  refine ⟨r, hnew, by rw [hheader], by rw [hheader], ?_⟩
  rw [hcollect, List.map_map]
  rfl

end Wiry.Capture
