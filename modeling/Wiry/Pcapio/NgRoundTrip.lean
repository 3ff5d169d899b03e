/-
What `RawPcapNgWriter` writes, read back by `RawPcapNgReader`: the octets where the Rust index finds
them, the rest from the metadata Python keeps under their offset.

Both walks take the blocks of the file one by one; the ids the writer gave out are the places of the
interfaces either side has met so far.
-/
import Wiry.Pcapio.Agree
import Wiry.Pcapio.NgBlocks

set_option autoImplicit false

namespace Wiry.Pcapio

open Packet Endian Capture Capture.Pcapng Rounding RawPcapNgWriter

/-! ## The index -/

/-- `read_pcap`: every record with the offset of its data. -/
def index (r : Reader) : List (ℕ × Record) :=
  match _h : r.step with
  | .stop => []
  | .skip r' => index r'
  | .yield record r' => (data_off r, record) :: index r'
termination_by r.buf.length - r.off
decreasing_by
  · exact (Reader.step_skip_ahead ‹_›).lt
  · exact (Reader.step_yield_ahead ‹_›).lt

theorem index_of_stop {r : Reader} (h : r.step = .stop) : index r = [] := by
  rw [index]
  split
  · rfl
  · rename_i h'
    rw [h] at h'
    cases h'
  · rename_i h'
    rw [h] at h'
    cases h'

/-- A skipped block adds nothing to it. -/
theorem index_of_skip {r r' : Reader} (h : r.step = .skip r') : index r = index r' := by
  rw [index]
  split
  · rename_i h'
    rw [h] at h'
    cases h'
  · rename_i h'
    rw [h] at h'
    rw [Step.skip.inj h']
  · rename_i h'
    rw [h] at h'
    cases h'

/-- A record is indexed under its data offset. -/
theorem index_of_yield {r r' : Reader} {rec : Record} (h : r.step = .yield rec r') :
    index r = (data_off r, rec) :: index r' := by
  rw [index]
  split
  · rename_i h'
    rw [h] at h'
    cases h'
  · rename_i h'
    rw [h] at h'
    cases h'
  · rename_i h'
    rw [h] at h'
    obtain ⟨rfl, rfl⟩ := Step.yield.inj h'
    rfl

/-- The index has the records that iterating the reader yields. -/
theorem index_records {r : Reader} (hgoing : r.done = false) :
    (index r).map Prod.snd = r.collect := by
  induction hn : r.buf.length - r.off using Nat.strong_induction_on generalizing r with
  | _ n ih =>
    cases hstep : r.step with
    | stop => rw [index_of_stop hstep, Reader.collect_of_stop hgoing hstep, List.map_nil]
    | skip r' =>
      have hgoing' : r'.done = false := (Reader.step_done (.inl hstep)).trans hgoing
      rw [index_of_skip hstep, Reader.collect_of_skip hgoing hgoing' hstep]
      exact ih _ (hn ▸ (Reader.step_skip_ahead hstep).lt) hgoing' rfl
    | yield rec r' =>
      have hgoing' : r'.done = false := (Reader.step_done (.inr ⟨rec, hstep⟩)).trans hgoing
      rw [index_of_yield hstep, Reader.collect_of_yield hgoing hstep, List.map_cons,
        ih _ (hn ▸ (Reader.step_yield_ahead hstep).lt) hgoing' rfl]

/-- The data of a record lies at its offset. -/
theorem data_at_off {r r' : Reader} {rec : Record} (h : r.step = .yield rec r') :
    slice_checked r.buf (data_off r) (data_off r + rec.data.length) = some rec.data := by
  obtain ⟨btype, total, hread, hshb⟩ := step_reads (by rw [h]; exact nofun) (yield_not_header h)
  have htype := (read_block_at_type hread).2
  unfold data_off
  rw [htype]
  rw [step_ordinary hread hshb] at h
  split at h
  · cases h
  · cases h
  · rename_i rec' hyield
    obtain ⟨rfl, -⟩ := Step.yield.inj h
    unfold block_at at hyield
    split at hyield
    · cases hyield
    -- Twelve octets of a simple block stand before its data, twenty-eight of a packet block.
    · split at hyield
      · rename_i hpacket
        have hspb : some btype ≠ some BLOCK_SPB := by
          rcases hpacket with rfl | rfl <;> decide
        obtain ⟨-, _, _, _, _, _, -, -, -, -, -, -, hdata, -⟩ := packet_at_yield hyield
        rw [if_neg hspb]
        exact data_at hdata
      · split at hyield
        · rename_i hspb
          obtain ⟨-, -, -, -, _, hdata⟩ := simple_at_yield hyield
          rw [if_pos (congrArg some hspb)]
          exact data_at hdata
        · cases hyield

/-- The file's header decides nothing the index holds. -/
theorem index_with_header (r : Reader) (header : FileHeader) : index (r.with_header header) = index r := by
  induction hn : r.buf.length - r.off using Nat.strong_induction_on generalizing r with
  | _ n ih =>
    have hstep := r.step_with_header header
    cases hcase : r.step with
    | stop =>
      rw [hcase] at hstep
      rw [index_of_stop hstep, index_of_stop hcase]
    | skip r' =>
      rw [hcase] at hstep
      have hskip : (r.with_header header).step = .skip (r'.with_header header) := hstep
      rw [index_of_skip hskip, index_of_skip hcase]
      exact ih _ (hn ▸ (Reader.step_skip_ahead hcase).lt) r' rfl
    | yield rec r' =>
      rw [hcase] at hstep
      have hyield : (r.with_header header).step = .yield rec (r'.with_header header) := hstep
      rw [index_of_yield hyield, index_of_yield hcase,
        ih _ (hn ▸ (Reader.step_yield_ahead hcase).lt) r' rfl]
      rfl

/-- Reading the leading interface blocks early changes nothing either. -/
theorem index_lead (r : Reader) : index r.lead = index r :=
  Reader.lead_keeps (fun _ _ hblock => (index_of_skip (Reader.step_of_idb hblock)).symm) r

theorem index_adopt (r : Reader) : index r.adopt = index r := by
  unfold Reader.adopt
  split
  · exact index_with_header r _
  · rfl

/-! ## Reading a file -/

/-- The metadata of a record that Python's walk kept nothing of. -/
def unkept (header : FileHeader) (rec : Record) : Metadata :=
  let res := if header.nanos then 1000000000 else 1000000
  let ticks := rec.ts_sec.toNat * res + rec.ts_frac.toNat
  { linktype := header.linktype.toUInt16, tsresol := res, tshigh := some (UInt32.ofNat (ticks / 2 ^ 32)),
    tslow := some (UInt32.ofNat ticks), wirelen := rec.origlen, comments := none, ifname := none,
    direction := none, proc := none, eproc := none }

/-- `_read_packet`: no more than `size` octets of a record, and its metadata. -/
def read_packet (size : ℕ) (file : Bytes) (header : FileHeader) (metas : ℕ → Option Metadata)
    (entry : ℕ × Record) : Bytes × Metadata :=
  ((slice file entry.1 (entry.1 + entry.2.caplen.toNat)).take size,
    (metas entry.1).getD (unkept header entry.2))

/-- What iterating a `RawPcapNgReader` over a file yields. -/
def read_file (size : ℕ) (file : Bytes) : Option (List (Bytes × Metadata)) :=
  match Reader.new file with
  | .error _ => none
  | .ok r => some ((index r).map (read_packet size file r.header (pcapng_metadata file)))

/-- The link type the packets of an interface name come back with: the file's where there is no name,
else that of the first packet under the name. -/
def link_of (linktype : ℕ) (ps : List Outgoing) (ifname : Option Bytes) : ℕ :=
  match ifname with
  | none => linktype
  | some _ =>
    ((ps.find? fun p => p.sniffed_on = ifname).map (linktype_for linktype)).getD linktype

/-- A packet as it comes back, with the link type of its interface name. -/
structure ReadBack (size : ℕ) (link : Option Bytes → ℕ) (p : Outgoing) (got : Bytes × Metadata) :
    Prop where
  octets : got.1 = p.octets.take size
  linktype : got.2.linktype.toNat = link p.sniffed_on
  tsresol : got.2.tsresol = 1000000
  ticks : ∃ hi lo, got.2.tshigh = some hi ∧ got.2.tslow = some lo ∧
    (hi.toNat * 2 ^ 32 + lo.toNat : ℤ) = p.micros % 2 ^ 64
  wirelen : got.2.wirelen.toNat = p.wirelen
  comments : got.2.comments = if p.comments = [] then none else some p.comments
  ifname : got.2.ifname = p.sniffed_on
  direction : got.2.direction.map (fun d => (d.toNat : ℤ)) = p.direction.map (· % 4)

/-- The metadata of a block are the packet's own, field by field. -/
theorem metadata_read_back {size : ℕ} {link : Option Bytes → ℕ} {p : Outgoing} {iface : Interface}
    {octets : Bytes} (hoctets : octets = p.octets.take size) (hname : iface.name = p.sniffed_on)
    (hlink : iface.linktype.toNat = link iface.name) (hres : iface.tsresol = DEFAULT_TSRESOL)
    (hwire : p.wirelen < 2 ^ 32) :
    ReadBack size link p
      (octets, metadata_of iface (ticks_of p.time) p.wirelen p.comments (p.direction.map (· % 4))) where
  octets := hoctets
  linktype := hname ▸ hlink
  tsresol := hres
  -- The time is split into two words and put together again.
  ticks := by
    refine ⟨_, _, rfl, rfl, ?_⟩
    rw [ticks_of_time, UInt32.toNat_ofNat', UInt32.toNat_ofNat', Nat.mod_eq_of_lt (by omega),
      Nat.mod_eq_of_lt (by omega)]
    omega
  wirelen := by
    show (UInt32.ofNat p.wirelen).toNat = p.wirelen
    rw [UInt32.toNat_ofNat', Nat.mod_eq_of_lt hwire]
  comments := rfl
  ifname := hname
  -- two bits of the flags word carry the direction
  direction := by
    unfold metadata_of
    cases p.direction with
    | none => rfl
    | some d =>
      show some (((UInt32.ofNat (d % 4).toNat &&& 3).toNat : ℕ) : ℤ) = some (d % 4)
      have hfour : (d % 4).toNat < 4 := by omega
      obtain ⟨v, hv⟩ : ∃ v : Fin 4, v.1 = (d % 4).toNat := ⟨⟨_, hfour⟩, rfl⟩
      have hand : ∀ v : Fin 4, (UInt32.ofNat v.1 &&& 3).toNat = v.1 := by decide
      rw [← hv, hand, hv, Int.toNat_of_nonneg (by omega)]

/-! ## The walks behind the writer -/

/-- Both walks where the writer stood, the ids it had given out being the places of the interfaces
Python's has met. -/
structure Synced (file : Bytes) (w : RawPcapNgWriter) (r : Reader) (s : Walker) : Prop where
  buf : r.buf = file
  off : r.off = w.f.length
  end_ : r.end_ = file.length
  swapped : r.swapped = false
  blob : s.blob = file
  pos : s.pos = w.f.length
  endian : s.endian = false
  ids : w.interfaces2id = s.ifaces.zipIdx.map fun i => (i.1.name, i.2)
  ifaces : r.ifaces.length = s.ifaces.length

/-- Every interface has the link type of its name. -/
def Linked (link : Option Bytes → ℕ) (ifaces : List Interface) : Prop :=
  ∀ i ∈ ifaces, i.linktype.toNat = link i.name ∧ i.tsresol = DEFAULT_TSRESOL

section Ids

variable {ifaces : List Interface} {ifname : Option Bytes}

/-- An id is the place of an interface of the name. -/
theorem lookup_id {k id : ℕ}
    (h : ((ifaces.zipIdx k).map fun i => (i.1.name, i.2)).lookup ifname = some id) :
    ∃ iface, k ≤ id ∧ ifaces[id - k]? = some iface ∧ iface.name = ifname := by
  induction ifaces generalizing k with
  | nil => cases h
  | cons iface ifaces ih =>
    rw [List.zipIdx_cons, List.map_cons, List.lookup_cons] at h
    by_cases hname : iface.name = ifname
    · rw [hname, beq_self_eq_true] at h
      rw [← Option.some.inj h]
      exact ⟨iface, le_rfl, by rw [Nat.sub_self]; rfl, hname⟩
    · rw [beq_eq_false_iff_ne.2 (Ne.symm hname)] at h
      obtain ⟨iface', hle, hat, hname'⟩ := ih h
      refine ⟨iface', by omega, ?_, hname'⟩
      obtain ⟨m, hm⟩ : ∃ m, id - k = m + 1 := ⟨id - k - 1, by omega⟩
      rw [hm, List.getElem?_cons_succ, ← hat]
      congr 1
      omega

theorem lookup_none {k : ℕ} (h : ((ifaces.zipIdx k).map fun i => (i.1.name, i.2)).lookup ifname = none) :
    ∀ i ∈ ifaces, i.name ≠ ifname := by
  induction ifaces generalizing k with
  | nil => exact nofun
  | cons iface ifaces ih =>
    rw [List.zipIdx_cons, List.map_cons, List.lookup_cons] at h
    by_cases hname : iface.name = ifname
    · rw [hname, beq_self_eq_true] at h
      cases h
    · rw [beq_eq_false_iff_ne.2 (Ne.symm hname)] at h
      exact List.forall_mem_cons.2 ⟨hname, ih h⟩

/-- The next id is the place the next interface takes. -/
theorem next_id {k m : ℕ} (hm : m ≤ k) (hne : ifaces ≠ []) :
    (((ifaces.zipIdx k).map fun i => (i.1.name, i.2)).map Prod.snd).foldl max m + 1 =
      k + ifaces.length := by
  induction ifaces generalizing k m with
  | nil => exact absurd rfl hne
  | cons iface ifaces ih =>
    rw [List.zipIdx_cons, List.map_cons, List.map_cons, List.foldl_cons, List.length_cons]
    dsimp only
    rw [Nat.max_eq_right hm]
    cases ifaces with
    | nil => rfl
    | cons i ifaces =>
      rw [ih (Nat.le_succ k) nofun]
      omega

end Ids

section Blocks

variable {file rest : Bytes} {w : RawPcapNgWriter} {r : Reader} {s : Walker} {b : Block}

/-- The body of a block that was written is the block's. -/
theorem body_at_encode {pre : Bytes} (hfile : file = pre ++ b.encode false ++ rest) :
    body_at file pre.length (b.encode false).length = b.body := by
  obtain ⟨total, htotal⟩ : ∃ t, t = le32 (UInt32.ofNat (12 + b.body.length)) := ⟨_, rfl⟩
  have hsplit : file = (pre ++ le32 b.btype ++ total) ++ b.body ++ (total ++ rest) := by
    rw [hfile, htotal]
    show pre ++ (le32 b.btype ++ _ ++ b.body ++ _) ++ rest = _
    simp only [List.append_assoc]
    rfl
  have hfour : total.length = 4 := htotal ▸ length_le32 _
  have hlen := b.length_encode false
  unfold body_at
  rw [hsplit]
  refine slice_middle _ _ _ ?_ ?_
  · simp only [List.length_append, length_le32, hfour]
  · simp only [List.length_append, length_le32, hfour, hlen]
    omega

/-- The block both walks are at. -/
theorem Synced.read (hs : Synced file w r s) (hfile : file = w.f ++ b.encode false ++ rest) :
    read_block_at r.buf r.swapped r.end_ r.off = some (b.btype, (b.encode false).length) := by
  rw [hs.buf, hs.swapped, hs.end_, hs.off]
  apply read_block_at_encode hfile
  rw [hfile, List.length_append, List.length_append]
  exact Nat.le_add_right _ _

theorem Synced.turn (hs : Synced file w r s) (hfile : file = w.f ++ b.encode false ++ rest)
    (hshb : b.btype ≠ BLOCK_SHB) :
    s.turn = some { s.block b.btype b.body with pos := w.f.length + (b.encode false).length } := by
  have hread : read_block_at s.blob s.endian r.end_ s.pos =
      some (b.btype, (b.encode false).length) := by
    have hhere := hs.read hfile
    rw [hs.buf, hs.swapped, hs.off] at hhere
    rwa [hs.blob, hs.endian, hs.pos]
  have hend : r.end_ ≤ s.blob.length := by rw [hs.end_, hs.blob]
  rw [turn_ordinary hend hread hshb, hs.blob, hs.pos, body_at_encode hfile]

/-- Past an interface block. -/
theorem interface_read {link : Option Bytes → ℕ} {linktype : ℕ} {ifname : Option Bytes} {out : Bytes}
    (hs : Synced file w r s) (hlinked : Linked link s.ifaces)
    (hidb : _write_block_idb linktype ifname = some out) (hlink : link ifname = linktype)
    (hfile : file = w.f ++ out ++ rest) :
    ∃ r' s', index r = index r' ∧ s.turn = some s' ∧
      s'.ifaces = s.ifaces ++ [interface_of linktype ifname] ∧ Linked link s'.ifaces ∧
      Synced file { w with
        interfaces2id := w.interfaces2id ++ [(ifname, s.ifaces.length)], f := w.f ++ out } r' s' := by
  -- The interface block is read by both walks, which stay in step.
  obtain ⟨hfit, hsmall, b, htype, rfl, hbody⟩ := idb_some hidb
  have hread := hs.read hfile
  have hturn := hs.turn hfile (by rw [htype]; decide)
  rw [htype] at hread
  have hinterface : idb s.endian b.body = some (interface_of linktype ifname) := by
    rw [hs.endian, hbody, idb_written hfit]
  have hifaces : (s.block b.btype b.body).ifaces = s.ifaces ++ [interface_of linktype ifname] := by
    rw [(s.block_frame b.btype b.body).2.2.2, if_pos htype, hinterface]
    rfl
  refine ⟨_, _, index_of_skip (Reader.step_of_idb hread), hturn, hifaces, ?_, ?_⟩
  · show Linked link (s.block b.btype b.body).ifaces
    rw [hifaces]
    intro i hi
    rcases List.mem_append.1 hi with hi | hi
    · exact hlinked i hi
    · rw [List.mem_singleton.1 hi]
      refine ⟨?_, rfl⟩
      show (UInt16.ofNat linktype).toNat = link ifname
      rw [UInt16.toNat_ofNat', Nat.mod_eq_of_lt hsmall, hlink]
  -- Behind it they stand at the end of what was written, with one interface more each.
  · obtain ⟨hblob, -, hendian, -⟩ := s.block_frame b.btype b.body
    refine ⟨hs.buf, ?_, hs.end_, hs.swapped, hblob.trans hs.blob, ?_, hendian.trans hs.endian, ?_, ?_⟩
    · dsimp only
      rw [hs.off, List.length_append]
    · dsimp only
      rw [List.length_append]
    · show _ = ((s.block b.btype b.body).ifaces.zipIdx.map fun i => (i.1.name, i.2))
      rw [hifaces, List.zipIdx_append, List.map_append, ← hs.ids]
      rw [Nat.zero_add]
      rfl
    · show (r.ifaces ++ [_]).length = (s.block b.btype b.body).ifaces.length
      rw [hifaces, List.length_append, List.length_append, hs.ifaces]
      rfl

/-- Past a packet block. -/
theorem packet_read {ifid orglen : ℕ} {p : Outgoing} {flags : Option ℤ} {out : Bytes} {iface : Interface}
    (hs : Synced file w r s) (hiface : s.ifaces[ifid]? = some iface) (horg : p.octets.length ≤ orglen)
    (hepb : _write_block_epb p.octets ifid p.time p.octets.length orglen p.comments flags = some out)
    (hfile : file = w.f ++ out ++ rest) :
    orglen < 2 ^ 32 ∧ ∃ rec r' s', r.step = .yield rec r' ∧ data_off r = w.f.length + 28 ∧
      slice file (w.f.length + 28) (w.f.length + 28 + rec.caplen.toNat) = p.octets ∧
      s.turn = some s' ∧ s'.ifaces = s.ifaces ∧ w.f.length + 28 < s'.pos + 12 ∧
      s'.metas (w.f.length + 28) = some (metadata_of iface (ticks_of p.time) orglen p.comments flags) ∧
      Synced file { w with f := w.f ++ out } r' s' := by
  obtain ⟨hfit, hid, hsmall, b, htype, rfl, hbody⟩ := epb_some rfl horg hepb
  replace hbody : b.body =
    epb_body ifid (ticks_of p.time) orglen p.octets (options_for p.comments flags) := hbody
  have hlen : p.octets.length < 2 ^ 32 := by omega
  have hlong : (b.encode false).length = 32 + pad4 p.octets.length +
      (encode_options (options_for p.comments flags)).length := by
    rw [Block.length_encode, hbody, length_epb_body]
    omega
  have hpad := le_pad4 p.octets.length
  have hread := hs.read hfile
  have hturn := hs.turn hfile (by rw [htype]; decide)
  have hstep := step_ordinary hread (by rw [htype]; decide)
  -- the words of the body, where the Rust reader looks for them
  have hat := body_at_encode hfile
  have hin : w.f.length + (b.encode false).length ≤ file.length := by
    rw [hfile, List.length_append, List.length_append]
    exact Nat.le_add_right _ _
  have hword : ∀ k v, (epb_words ifid (ticks_of p.time) p.octets.length orglen)[k]? = some v →
      k < 5 → rd32 file (w.f.length + 8 + 4 * k) false = some v := by
    intro k v hv hk
    rw [← rd32_body_at hin (by omega) (by omega), hat, hbody]
    exact rd32_epb_body hv
  have hdata : slice_checked file (w.f.length + 28) (w.f.length + 28 + p.octets.length) =
      some p.octets := by
    obtain ⟨pre, rest', hsplit, hpre⟩ := body_split (show 12 ≤ (b.encode false).length by omega) hin
    have hinside := slice_checked_within pre rest'
      (show 20 ≤ 20 + p.octets.length from Nat.le_add_right _ _)
      (show 20 + p.octets.length ≤ (body_at file w.f.length (b.encode false).length).length by
        rw [length_body_at hin]
        omega)
    have hfrom : w.f.length + 8 + 20 = w.f.length + 28 := by omega
    have hto : w.f.length + 8 + (20 + p.octets.length) = w.f.length + 28 + p.octets.length := by omega
    rw [← hsplit, hat, hbody, data_epb_body, hpre, hfrom, hto] at hinside
    exact hinside
  have hcap : (UInt32.ofNat p.octets.length).toNat = p.octets.length := by
    rw [UInt32.toNat_ofNat', Nat.mod_eq_of_lt hlen]
  have hid' : (UInt32.ofNat ifid).toNat = ifid := by
    rw [UInt32.toNat_ofNat', Nat.mod_eq_of_lt hid]
  have hknown : r.ifaces[ifid]? ≠ none := by
    have hlt := (List.getElem?_eq_some_iff.1 hiface).1
    rw [Ne, List.getElem?_eq_none_iff, hs.ifaces]
    omega
  obtain ⟨rec, hpacket, hcaplen⟩ : ∃ rec : Record,
      block_at r.buf r.swapped r.ifaces r.header b.btype r.off (b.encode false).length = .yield rec ∧
        rec.caplen = UInt32.ofNat p.octets.length := by
    unfold block_at packet_at
    rw [htype, if_neg (by decide), if_pos (Or.inl rfl), if_neg (by omega), if_neg (by decide), hs.buf,
      hs.off, hs.swapped]
    dsimp only
    rw [hword 0 _ rfl (by omega)]
    dsimp only
    rw [hid', if_neg hknown, hword 1 _ rfl (by omega), hword 2 _ rfl (by omega),
      hword 3 _ rfl (by omega), hword 4 _ rfl (by omega)]
    dsimp only
    rw [hcap, if_neg (by omega), hdata]
    exact ⟨_, rfl, rfl⟩
  rw [hpacket] at hstep
  have hmeta := @packet_block_written ifid orglen (ticks_of p.time) p.octets s.ifaces
    s.process_information iface p.comments flags hid hlen hfit hiface
  have hblock : s.block b.btype b.body = s.keep (w.f.length + 28)
      (some (metadata_of iface (ticks_of p.time) orglen p.comments flags)) := by
    unfold Walker.block
    rw [htype, if_neg (by decide), if_pos (Or.inr rfl), hs.endian, hbody, hmeta, hs.pos]
  refine ⟨hsmall, rec, _, _, hstep, ?_, ?_, hturn, ?_, ?_, ?_, ?_⟩
  · have hhere := (read_block_at_type hread).2
    unfold data_off
    rw [hhere, htype, if_neg (by decide), hs.off]
  · have hslice := hdata
    unfold slice_checked at hslice
    split at hslice
    · rw [hcaplen, hcap]
      exact Option.some.inj hslice
    · cases hslice
  · show (s.block b.btype b.body).ifaces = s.ifaces
    rw [hblock]
    rfl
  · dsimp only
    omega
  · show (s.block b.btype b.body).metas _ = _
    rw [hblock]
    exact keep_some s _ _
  · obtain ⟨hblob, -, hendian, hifaces⟩ := s.block_frame b.btype b.body
    rw [htype, if_neg (by decide)] at hifaces
    refine ⟨hs.buf, ?_, hs.end_, hs.swapped, hblob.trans hs.blob, ?_, hendian.trans hs.endian, ?_, ?_⟩
    · dsimp only
      rw [hs.off, List.length_append]
    · dsimp only
      rw [List.length_append]
    · show w.interfaces2id = _
      rw [hs.ids]
      show _ = ((s.block b.btype b.body).ifaces.zipIdx.map fun i => (i.1.name, i.2))
      rw [htype, hifaces]
    · show r.ifaces.length = (s.block b.btype b.body).ifaces.length
      rw [htype, hifaces, hs.ifaces]

end Blocks

theorem Synced.in_file {file more : Bytes} {w : RawPcapNgWriter} {r : Reader} {s : Walker}
    (hs : Synced file w r s) (hfile : file = w.f ++ more) : s.pos ≤ file.length := by
  rw [hs.pos, hfile, List.length_append]
  exact Nat.le_add_right _ _

/-- The interface of a packet's name, an old one or the one just written. -/
theorem name_read {file rest : Bytes} {w w' : RawPcapNgWriter} {r : Reader} {s : Walker}
    {link : Option Bytes → ℕ} {linktype ifid n : ℕ} {ifname : Option Bytes} (hs : Synced file w r s)
    (hlinked : Linked link s.ifaces) (hne : s.ifaces ≠ [])
    (hlink : (∀ i ∈ s.ifaces, i.name ≠ ifname) → link ifname = linktype)
    (hiface : w.interface linktype ifname = some (w', ifid)) (hfile : file = w'.f ++ rest)
    (hroom : file.length ≤ s.pos + n) :
    ∃ r' s' m iface, index r = index r' ∧ s.walk n = s'.walk m ∧ file.length ≤ s'.pos + m ∧
      s'.ifaces[ifid]? = some iface ∧ iface.name = ifname ∧ Linked link s'.ifaces ∧
      (∀ i ∈ s.ifaces, i ∈ s'.ifaces) ∧ w'.linktype = w.linktype ∧ Synced file w' r' s' := by
  -- The name was written before, and has its block; or its block is written and read now.
  rcases interface_some hiface with ⟨hold, rfl⟩ | ⟨hnew, hid, out, hidb, rfl⟩
  · rw [hs.ids] at hold
    obtain ⟨iface, -, hat, hname⟩ := lookup_id hold
    exact ⟨r, s, n, iface, rfl, rfl, hroom, hat, hname, hlinked, fun i hi => hi, rfl, hs⟩
  · rw [hs.ids] at hnew hid
    rw [next_id le_rfl hne, Nat.zero_add] at hid
    subst hid
    obtain ⟨r', s', hindex, hturn, hifaces, hlinked', hs'⟩ :=
      interface_read hs hlinked hidb (hlink (lookup_none hnew)) hfile
    have hin : s'.pos ≤ s.blob.length := hs.blob ▸ hs'.in_file hfile
    obtain ⟨m, hwalk, hroom'⟩ := walk_turn (hs.blob ▸ hroom) hturn hin
    refine ⟨r', s', m, interface_of linktype ifname, hindex, hwalk, hs.blob ▸ hroom', ?_, rfl, hlinked',
      fun i hi => ?_, rfl, hs'⟩
    · rw [hifaces, List.getElem?_append_right le_rfl, Nat.sub_self]
      rfl
    · rw [hifaces]
      exact List.mem_append_left _ hi

/-- **The packets come back in order**, each from its own block and the interface of its name. -/
theorem packets_read {file : Bytes} {link : Option Bytes → ℕ} {size : ℕ} {header : FileHeader}
    (ps : List Outgoing) {w w' : RawPcapNgWriter} {r : Reader} {s : Walker} {n : ℕ}
    (hs : Synced file w r s) (hlinked : Linked link s.ifaces) (hne : s.ifaces ≠ [])
    (hlink : ∀ done p rest, ps = done ++ p :: rest → (∀ i ∈ s.ifaces, i.name ≠ p.sniffed_on) →
      (∀ d ∈ done, d.sniffed_on ≠ p.sniffed_on) → link p.sniffed_on = linktype_for w.linktype p)
    (hrun : ps.foldlM write_packet w = some w') (hfile : w'.f = file)
    (hroom : file.length ≤ s.pos + n) :
    List.Forall₂ (ReadBack size link) ps
      ((index r).map (read_packet size file header (s.walk n).metas)) := by
  induction ps generalizing w r s n with
  | nil =>
    cases hrun
    have hend : r.step = .stop := by
      unfold Reader.step
      exact if_pos (by rw [hs.off, hs.end_, ← hfile]; omega)
    rw [index_of_stop hend]
    exact .nil
  | cons p ps ih =>
    rw [List.foldlM_cons] at hrun
    obtain ⟨w₁, hw₁, hrun⟩ := Option.bind_eq_some_iff.1 hrun
    obtain ⟨w₀, ifid, out, hiface, hepb, rfl⟩ := write_packet_some hw₁
    obtain ⟨more, hmore⟩ := foldlM_extends hrun
    have hfile₁ : file = w₀.f ++ out ++ more := by rw [← hfile, hmore]
    obtain ⟨r₀, s₀, m₀, iface, hindex, hwalk₀, hroom₀, hat, hname, hlinked₀, hmem, hsame, hs₀⟩ :=
      name_read hs hlinked hne (fun hnew => hlink [] p ps rfl hnew nofun) hiface
        (show file = w₀.f ++ (out ++ more) by rw [hfile₁, List.append_assoc]) hroom
    obtain ⟨hwire, rec, r', s', hstep, hoff, hdata, hturn, hifaces, hbehind, hmeta, hs'⟩ :=
      packet_read hs₀ hat p.captured_le hepb hfile₁
    have hin : s'.pos ≤ s₀.blob.length := hs₀.blob ▸ hs'.in_file hfile₁
    obtain ⟨m, hwalk, hroom'⟩ := walk_turn (hs₀.blob ▸ hroom₀) hturn hin
    rw [hs₀.blob] at hroom'
    have hwhole : s.walk n = s'.walk m := hwalk₀.trans hwalk
    -- what was kept of this packet stays, whatever is read behind it
    have hkept : (s.walk n).metas (w₀.f.length + 28) =
        some (metadata_of iface (ticks_of p.time) p.wirelen p.comments (p.direction.map (· % 4))) := by
      rw [hwhole, walk_keeps m s' hbehind, hmeta]
    have hmem_iface := List.mem_of_getElem? hat
    rw [hindex, index_of_yield hstep, List.map_cons, hoff]
    refine .cons ?_ ?_
    · unfold read_packet
      dsimp only
      rw [hdata, hkept, Option.getD_some]
      exact metadata_read_back rfl hname (hlinked₀ iface hmem_iface).1 (hlinked₀ iface hmem_iface).2 hwire
    · rw [hwhole]
      refine ih hs' (hifaces ▸ hlinked₀) ?_ ?_ hrun hroom'
      · rw [hifaces]
        exact List.ne_nil_of_mem hmem_iface
      · intro done q rest hps hnew hfirst
        show _ = linktype_for w₀.linktype q
        rw [hsame]
        rw [hifaces] at hnew
        refine hlink (p :: done) q rest (by rw [hps]; rfl) (fun i hi => hnew i (hmem i hi)) ?_
        refine List.forall_mem_cons.2 ⟨?_, hfirst⟩
        rw [← hname]
        exact hnew iface hmem_iface

theorem length_version_le : (le16 1 ++ le16 0).length = 4 := rfl

/-- The section of a written file, its blocks left to the octets behind it. -/
def written_header : Section where
  swapped := false
  declares := false
  version := le16 1 ++ le16 0
  options := []
  blocks := []
  length_version := length_version_le
  aligned := no_options_aligned
  small := no_options_small
  well_formed := nofun
  extent_lt := nofun

theorem write_block_shb_eq : _write_block_shb = some written_header.encode := by decide +kernel

/-- Both walks past the header of a file. -/
theorem header_read {file more : Bytes} {first : Option Outgoing} {w : RawPcapNgWriter}
    {link : Option Bytes → ℕ} (hlink : link none = (first.bind Outgoing.linktype).getD 1)
    (hw : write_header first = some w) (hfile : file = w.f ++ more) :
    w.linktype = (first.bind Outgoing.linktype).getD 1 ∧
      ∃ opened r s n, Reader.new file = .ok opened ∧ index opened = index r ∧
        pcapng_metadata file = (s.walk n).metas ∧ file.length ≤ s.pos + n ∧ Synced file w r s ∧
        Linked link s.ifaces ∧ s.ifaces.map Interface.name = [none] := by
  unfold write_header at hw
  dsimp only at hw
  rw [write_block_shb_eq, Option.bind_some] at hw
  obtain ⟨iface, hidb, rfl⟩ := Option.map_eq_some_iff.1 hw
  refine ⟨rfl, ?_⟩
  have hsection : file = written_header.encode ++ (iface ++ more) := by
    rw [hfile, List.append_assoc]
  obtain ⟨r₀, hnew, henter, hswapped, hnone, hat⟩ := new_encode hsection
  have hheader : written_header.encode = written_header.header.encode false := List.append_nil _
  -- Python's first turn takes the section header
  obtain ⟨swapped, btype, total, horder, hread, -, hoff, hswapped', -, -⟩ :=
    enter_section_inv (show (Reader.opening file false).enter_section
      (Reader.opening file false).off = some r₀ from henter)
  obtain ⟨s₀, hs₀⟩ : ∃ s₀ : Walker, s₀ = ⟨file, 0, false, [], [], fun _ => none⟩ := ⟨_, rfl⟩
  obtain ⟨s₁, hs₁⟩ : ∃ s₁ : Walker, s₁ = ⟨file, 0 + total, swapped, [], [], fun _ => none⟩ := ⟨_, rfl⟩
  have htype : rd32 file 0 false = some BLOCK_SHB :=
    rd32_encode (show file = [] ++ written_header.header.encode false ++ (iface ++ more) by
      rw [hsection, hheader]
      rfl)
  have hturn : s₀.turn = some s₁ := by
    rw [hs₀, hs₁]
    exact turn_header (e := false) htype horder hread
  have hin : s₁.pos ≤ s₀.blob.length := by
    rw [hs₀, hs₁]
    exact (read_block_at_bounds hread).2
  have hfuel : s₀.blob.length ≤ s₀.pos + file.length := by
    rw [hs₀]
    exact Nat.le_add_left _ _
  obtain ⟨n, hwalk, hroom⟩ := walk_turn hfuel hturn hin
  have hpos : 0 + total = written_header.encode.length := by
    have hhere := hat.off_eq
    rw [hoff] at hhere
    rw [hheader]
    exact hhere
  have hsync : Synced file ⟨(first.bind Outgoing.linktype).getD 1, [], written_header.encode⟩ r₀ s₁ := by
    rw [hs₁]
    refine ⟨hat.buf_eq, ?_, hat.end_eq, hswapped, rfl, hpos, ?_, rfl, by rw [hnone]; rfl⟩
    · rw [hat.off_eq, hheader]
      rfl
    · exact hswapped'.symm.trans hswapped
  have hempty : s₁.ifaces = [] := by rw [hs₁]
  obtain ⟨r, s, hindex, hturn', hifaces, hlinked, hs⟩ := interface_read hsync
    (show Linked link s₁.ifaces by rw [hempty]; exact nofun) hidb hlink
    (show file = written_header.encode ++ iface ++ more from hfile)
  have hin' : s.pos ≤ s₁.blob.length := hsync.blob ▸ hs.in_file hfile
  have hblob : s₁.blob = s₀.blob := by rw [hs₀, hs₁]
  obtain ⟨n', hwalk', hroom'⟩ := walk_turn (hblob ▸ hroom) hturn' hin'
  refine ⟨_, r, s, n', hnew, ?_, ?_, hsync.blob ▸ hroom', ?_, hlinked, ?_⟩
  · rw [index_adopt, index_lead, hindex]
  · rw [← hwalk', ← hwalk, hs₀]
    rfl
  · rw [hempty] at hs
    exact hs
  · rw [hifaces, hempty]
    rfl

/-- **A file that was written is read back, packet by packet.** -/
theorem file_read (size : ℕ) {ps : List Outgoing} {file : Bytes} (h : write_file ps = some file) :
    ∃ got, read_file size file = some got ∧
      List.Forall₂ (ReadBack size (link_of ((ps.head?.bind Outgoing.linktype).getD 1) ps)) ps got := by
  obtain ⟨w, hw, h⟩ := Option.bind_eq_some_iff.1 h
  obtain ⟨w', hrun, hf⟩ := Option.map_eq_some_iff.1 h
  obtain ⟨more, hmore⟩ := foldlM_extends hrun
  obtain ⟨linktype, hlinktype⟩ : ∃ n, n = (ps.head?.bind Outgoing.linktype).getD 1 := ⟨_, rfl⟩
  obtain ⟨hsame, opened, r, s, n, hnew, hindex, hmetas, hroom, hs, hlinked, hnames⟩ :=
    header_read (show link_of linktype ps none = _ from hlinktype) hw (hf ▸ hmore)
  rw [← hlinktype] at hsame ⊢
  have hne : s.ifaces ≠ [] := by
    rintro hempty
    rw [hempty] at hnames
    cases hnames
  have hnone : ∃ i ∈ s.ifaces, i.name = none := by
    have : none ∈ s.ifaces.map Interface.name := by
      rw [hnames]
      exact List.mem_singleton_self _
    exact List.mem_map.1 this
  unfold read_file
  rw [hnew]
  refine ⟨_, rfl, ?_⟩
  rw [hindex, hmetas]
  refine packets_read ps hs hlinked hne ?_ hrun hf hroom
  -- the first packet under a name gives it its link type
  intro done p rest hps hnew' hfirst
  rw [hsame]
  obtain ⟨i, hi, hin⟩ := hnone
  have hnamed : p.sniffed_on ≠ none := fun hp => hnew' i hi (hin.trans hp.symm)
  obtain ⟨name, hname⟩ := Option.ne_none_iff_exists'.1 hnamed
  have hfind : ps.find? (fun q => q.sniffed_on = p.sniffed_on) = some p := by
    rw [hps, List.find?_append, List.find?_eq_none.2 (fun d hd => by
      rw [decide_eq_true_eq]
      exact hfirst d hd), Option.none_or, List.find?_cons_of_pos (by rw [decide_eq_true_eq])]
  unfold link_of
  rw [hname] at hfind ⊢
  dsimp only
  rw [hfind]
  rfl

/-- **What is written is read back**: as many packets, in order, each with its own octets as far as
`size` goes, ticks, wire length, comments, interface name and the two bits of its direction, and with
the link type of the first packet under its interface name. -/
theorem written_read_back (size : ℕ) {ps : List Outgoing} {file : Bytes}
    (h : write_file ps = some file) :
    ∃ got, read_file size file = some got ∧ got.length = ps.length ∧
      ∀ (i : ℕ) (p : Outgoing), ps[i]? = some p → ∃ g, got[i]? = some g ∧
        ReadBack size (link_of ((ps.head?.bind Outgoing.linktype).getD 1) ps) p g := by
  obtain ⟨got, hread, hall⟩ := file_read size h
  refine ⟨got, hread, hall.length_eq.symm, ?_⟩
  intro i p hp
  obtain ⟨hi, rfl⟩ := List.getElem?_eq_some_iff.1 hp
  have hi' : i < got.length := hall.length_eq ▸ hi
  exact ⟨got[i], List.getElem?_eq_getElem hi', (List.forall₂_iff_get.1 hall).2 i hi hi'⟩

/-- Two packets of the same interface, or of none, by their link types. -/
def two_links (ifname : Option Bytes) (first second : ℕ) : List Outgoing :=
  [⟨[1, 2, 3], 1000001, 3, ifname, some first, some 1, [[104, 105]], le_rfl⟩,
    ⟨[4], 7, 60, ifname, some second, none, [], by decide⟩]

/-- Two packets of one link type, on an interface with a name. -/
theorem written_read_back_named : ∃ file got, write_file (two_links (some [101, 110]) 1 1) = some file ∧
    read_file 65535 file = some got ∧ got.length = 2 ∧
    ∀ (i : ℕ) (p : Outgoing), (two_links (some [101, 110]) 1 1)[i]? = some p → ∃ g, got[i]? = some g ∧
      ReadBack 65535 (link_of 1 (two_links (some [101, 110]) 1 1)) p g := by
  have hsome : (write_file (two_links (some [101, 110]) 1 1)).isSome := by decide +kernel
  obtain ⟨file, hfile⟩ := Option.isSome_iff_exists.1 hsome
  obtain ⟨got, hgot⟩ := written_read_back 65535 hfile
  exact ⟨file, got, hfile, hgot⟩

/-- **An interface has one link type**: the second packet without a name comes back with that of the
first, which is not its own. -/
theorem second_link_type_lost :
    (two_links none 1 101).map (linktype_for 1) = [1, 101] ∧
      (∃ file got, write_file (two_links none 1 101) = some file ∧ read_file 65535 file = some got ∧
        got.map (fun g => g.2.linktype) = [1, 1]) ∧
      ¬ ∀ (ps : List Outgoing) (file : Bytes), RawPcapNgWriter.write_file ps = some file → ∃ got, read_file 65535 file = some got ∧
        List.Forall₂ (fun p (g : Bytes × Metadata) => g.2.linktype.toNat =
          linktype_for ((ps.head?.bind Outgoing.linktype).getD 1) p) ps got := by
  have hsome : (write_file (two_links none 1 101)).isSome := by decide +kernel
  obtain ⟨file, hfile⟩ := Option.isSome_iff_exists.1 hsome
  obtain ⟨got, hread, hall⟩ := file_read 65535 hfile
  -- Both packets come back under the link type the one interface was given first.
  have hlinks : got.map (fun g => g.2.linktype) = [1, 1] := by
    obtain ⟨g₁, got, hfirst, hrest, rfl⟩ := List.forall₂_cons_left_iff.1 hall
    obtain ⟨g₂, got, hsecond, hlast, rfl⟩ := List.forall₂_cons_left_iff.1 hrest
    obtain rfl := List.forall₂_nil_left_iff.1 hlast
    have h₁ : g₁.2.linktype = 1 := UInt16.toNat_inj.1 hfirst.linktype
    have h₂ : g₂.2.linktype = 1 := UInt16.toNat_inj.1 hsecond.linktype
    rw [List.map_cons, List.map_cons, List.map_nil, h₁, h₂]
  refine ⟨by decide, ⟨file, got, hfile, hread, hlinks⟩, ?_⟩
  intro hown
  obtain ⟨got', hread', hall'⟩ := hown _ _ hfile
  rw [hread] at hread'
  obtain rfl := Option.some.inj hread'
  obtain ⟨g₁, got, -, hrest, rfl⟩ := List.forall₂_cons_left_iff.1 hall'
  obtain ⟨g₂, got, hsecond, -, rfl⟩ := List.forall₂_cons_left_iff.1 hrest
  rw [List.map_cons, List.map_cons] at hlinks
  -- the second was sent with another
  have h₂ : g₂.2.linktype = 1 := (List.cons.inj (List.cons.inj hlinks).2).1
  rw [h₂] at hsecond
  exact absurd hsecond (by decide)

end Wiry.Pcapio
