/-
The two walks over one file: what Python keeps under a record's data is what the Rust reader made
the record of, where every interface block is one both sides can tell.

`Beside` relates the two walks between two blocks: they stand at the same
offset, in the same byte order, with the same interfaces. A step of the reader
keeps it, whether it skips (`beside_skip`, `beside_interface`) or yields
(`beside_yield`), and in the second case the entry filed under the data offset
is the record's. `Comes` carries that along a whole file.
-/
import Wiry.Pcapio.Turns

set_option autoImplicit false

namespace Wiry.Pcapio

open Packet Endian Capture Capture.Pcapng

/-- Where the Rust reader's walk comes: the records behind it, the reader, and the bodies of the
interface blocks of the section it is in. -/
inductive Comes (file : Bytes) : List Record → Reader → List Bytes → Prop
  | start {swapped : Bool} {r : Reader} (h : Opens file swapped r) : Comes file [] r []
  | enter {recs : List Record} {r r' : Reader} {bodies : List Bytes} (hr : Comes file recs r bodies)
      (htype : rd32 r.buf r.off r.swapped = some BLOCK_SHB) (h : r.step = .skip r') :
      Comes file recs r' []
  | interface {recs : List Record} {r r' : Reader} {bodies : List Bytes} {total : ℕ}
      (hr : Comes file recs r bodies)
      (hread : read_block_at r.buf r.swapped r.end_ r.off = some (BLOCK_IDB, total))
      (h : r.step = .skip r') : Comes file recs r' (bodies ++ [body_at r.buf r.off total])
  | skip {recs : List Record} {r r' : Reader} {bodies : List Bytes} {btype : UInt32} {total : ℕ}
      (hr : Comes file recs r bodies)
      (hread : read_block_at r.buf r.swapped r.end_ r.off = some (btype, total))
      (hshb : btype ≠ BLOCK_SHB) (hidb : btype ≠ BLOCK_IDB) (h : r.step = .skip r') :
      Comes file recs r' bodies
  | yield {recs : List Record} {r r' : Reader} {bodies : List Bytes} {rec : Record}
      (hr : Comes file recs r bodies) (h : r.step = .yield rec r') :
      Comes file (recs ++ [rec]) r' bodies

/-- A block both sides read alike: a whole interface, or a simple packet with one before it. -/
def Clean (r : Reader) : Prop :=
  ∀ btype total, read_block_at r.buf r.swapped r.end_ r.off = some (btype, total) →
    (btype = BLOCK_IDB → Whole r.swapped (body_at r.buf r.off total)) ∧
      (btype = BLOCK_SPB → r.ifaces ≠ [])

/-- Which interface of its section a packet block is on. -/
def named (r : Reader) : Option ℕ :=
  match rd32 r.buf r.off r.swapped with
  | some btype =>
    if btype = BLOCK_EPB then (rd32 r.buf (r.off + 8) r.swapped).map UInt32.toNat
    else if btype = BLOCK_PB then (rd16 r.buf (r.off + 8) r.swapped).map UInt16.toNat
    else some 0
  | none => none

/-- The data offset of the record in the packet block the reader stands at: an enhanced or obsolete
packet block keeps twenty octets of its own before the data, a simple one four. -/
def data_off (r : Reader) : ℕ :=
  if rd32 r.buf r.off r.swapped = some BLOCK_SPB then r.off + 12 else r.off + 28

/-- Metadata of the very interface and block a record comes from. -/
structure Agrees (r : Reader) (bodies : List Bytes) (rec : Record) (k : ℕ) (e : Metadata) : Prop where
  data : slice_checked r.buf k (k + rec.data.length) = some rec.data
  wirelen : e.wirelen = rec.origlen
  iface : ∃ id iface body i, named r = some id ∧ r.ifaces[id]? = some iface ∧
    bodies[id]? = some body ∧ idb r.swapped body = some i ∧
    e.linktype = i.linktype ∧ e.linktype.toUInt32 = iface.linktype ∧
    e.tsresol = i.tsresol ∧ e.tsresol = iface.tsresol ∧
    (e.tshigh ≠ none → e.ifname = i.name)
  time : match e.tshigh, e.tslow with
    | some hi, some lo =>
      rd32 r.buf (r.off + 12) r.swapped = some hi ∧ rd32 r.buf (r.off + 16) r.swapped = some lo ∧
        (rec.ts_sec, rec.ts_frac) = split_ts (hi.toNat * 2 ^ 32 + lo.toNat) e.tsresol
    | _, _ => rd32 r.buf r.off r.swapped = some BLOCK_SPB ∧ rec.ts_sec = 0 ∧ rec.ts_frac = 0

/-- Python's walk at the block the Rust reader is at. -/
structure Beside (r : Reader) (bodies : List Bytes) (s : Walker) : Prop where
  blob : s.blob = r.buf
  pos : s.pos = r.off
  endian : s.endian = r.swapped
  bodies : bodies.map (idb r.swapped) = s.ifaces.map some
  ifaces : s.ifaces.map (fun i => (i.linktype.toUInt32, i.tsresol))
    = r.ifaces.map fun f => (f.linktype, f.tsresol)

/-! ## Steps of the Rust reader -/

/-- What entering a section says about the reader that did. -/
theorem enter_section_inv {r r' : Reader} (h : r.enter_section r.off = some r') :
    ∃ swapped btype total, (rd32 r.buf (r.off + 8) false).bind order_of = some swapped ∧
      read_block_at r.buf swapped r.buf.length r.off = some (btype, total) ∧ r'.buf = r.buf ∧
      r'.off = r.off + total ∧ r'.swapped = swapped ∧ r'.ifaces = [] ∧ r'.done = r.done := by
  unfold Reader.enter_section at h
  split at h
  · cases h
  · rename_i swapped horder
    split at h
    · cases h
    · rename_i btype total hread
      split at h
      · cases h
      · split at h
        · cases h
        · rw [← Option.some.inj h]
          exact ⟨swapped, btype, total, horder, hread, rfl, rfl, rfl, rfl, rfl⟩

/-- A section header that is skipped was entered. -/
theorem step_header {r r' : Reader} (htype : rd32 r.buf r.off r.swapped = some BLOCK_SHB)
    (h : r.step = .skip r') : r.enter_section r.off = some r' := by
  unfold Reader.step at h
  split at h
  · cases h
  · rw [htype] at h
    dsimp only at h
    rw [if_pos rfl] at h
    split at h
    · cases h
    · rename_i hsome
      rw [hsome, Step.skip.inj h]

/-- A step that passes an ordinary block does with it what `block_at` says. -/
theorem step_ordinary {r : Reader} {btype : UInt32} {total : ℕ}
    (hread : read_block_at r.buf r.swapped r.end_ r.off = some (btype, total))
    (hne : btype ≠ BLOCK_SHB) :
    r.step = match block_at r.buf r.swapped r.ifaces r.header btype r.off total with
      | .stop => .stop
      | .skip ifaces => .skip { r with off := r.off + total, ifaces }
      | .yield rec => .yield rec { r with off := r.off + total } := by
  obtain ⟨hroom, htype⟩ := read_block_at_type hread
  unfold Reader.step
  rw [if_neg (by omega), htype]
  dsimp only
  rw [if_neg hne]
  split
  · rename_i hnone
    exact absurd (hnone.symm.trans hread) nofun
  · rename_i hsome
    obtain ⟨rfl, rfl⟩ := Prod.mk.inj (Option.some.inj (hsome.symm.trans hread))
    rfl

/-- Every other step that goes on read a block. -/
theorem step_reads {r : Reader} (hgoes : r.step ≠ .stop)
    (hne : rd32 r.buf r.off r.swapped ≠ some BLOCK_SHB) :
    ∃ btype total, read_block_at r.buf r.swapped r.end_ r.off = some (btype, total) ∧
      btype ≠ BLOCK_SHB := by
  unfold Reader.step at hgoes
  split at hgoes
  · exact absurd rfl hgoes
  · split at hgoes
    · exact absurd rfl hgoes
    · rename_i t ht
      have hother : t ≠ BLOCK_SHB := fun h => hne (ht.trans (congrArg some h))
      rw [if_neg hother] at hgoes
      split at hgoes
      · exact absurd rfl hgoes
      · rename_i btype total hread
        refine ⟨btype, total, hread, fun h => hne ?_⟩
        rw [(read_block_at_type hread).2, h]

/-- A record never comes of a section header. -/
theorem yield_not_header {r r' : Reader} {rec : Record} (h : r.step = .yield rec r') :
    rd32 r.buf r.off r.swapped ≠ some BLOCK_SHB := by
  intro htype
  unfold Reader.step at h
  split at h
  · cases h
  · rw [htype] at h
    dsimp only at h
    rw [if_pos rfl] at h
    split at h
    · cases h
    · cases h

/-- A block other than an interface leaves the interfaces. -/
theorem block_at_skip {buf : Bytes} {swapped : Bool} {ifaces ifaces' : List Iface}
    {header : FileHeader} {btype : UInt32} {start total : ℕ} (hidb : btype ≠ BLOCK_IDB)
    (h : block_at buf swapped ifaces header btype start total = .skip ifaces') : ifaces' = ifaces := by
  -- Along the branches of the block reader: what skips leaves the interfaces alone.
  unfold block_at at h
  rw [if_neg hidb] at h
  split at h
  · unfold packet_at at h
    split at h
    · cases h
    · dsimp only at h
      split at h
      · cases h
      · split at h
        · exact (Pass.skip.inj h).symm
        · split at h
          · split at h
            · cases h
            · split at h
              · cases h
              · cases h
          · cases h
  · split at h
    · unfold simple_at at h
      split at h
      · cases h
      · split at h
        · cases h
        · dsimp only at h
          split at h
          · cases h
          · cases h
    · exact (Pass.skip.inj h).symm

/-! ## The walks together -/

section Together

variable {file : Bytes} {recs : List Record} {r r' : Reader} {bodies : List Bytes} {s : Walker}

theorem beside_header (hs : Beside r bodies s)
    (htype : rd32 r.buf r.off r.swapped = some BLOCK_SHB) (h : r.step = .skip r') :
    ∃ s', s.turn = some s' ∧ Beside r' [] s' := by
  obtain ⟨swapped, btype, total, horder, hread, hbuf, hoff, hswapped, hifaces, -⟩ :=
    enter_section_inv (step_header htype h)
  rw [← hs.blob, ← hs.pos] at htype horder hread
  refine ⟨_, turn_header htype horder hread, ?_⟩
  exact ⟨hs.blob.trans hbuf.symm, by rw [hoff, ← hs.pos], hswapped.symm, rfl, by rw [hifaces]; rfl⟩

theorem beside_ordinary (hs : Beside r bodies s) {btype : UInt32} {total : ℕ}
    (hread : read_block_at r.buf r.swapped r.end_ r.off = some (btype, total))
    (hshb : btype ≠ BLOCK_SHB) :
    s.turn = some { s.block btype (body_at r.buf r.off total) with pos := r.off + total } := by
  have hend : r.end_ ≤ s.blob.length := hs.blob ▸ r.end_le
  have hread' : read_block_at s.blob s.endian r.end_ s.pos = some (btype, total) := by
    rw [hs.blob, hs.endian, hs.pos, hread]
  rw [turn_ordinary hend hread' hshb, hs.blob, hs.pos]

/-- On an interface block both walks add the interface and stay beside each other, as long as the
block is whole. -/
theorem beside_interface (hs : Beside r bodies s) (hclean : Clean r) {total : ℕ}
    (hread : read_block_at r.buf r.swapped r.end_ r.off = some (BLOCK_IDB, total))
    (h : r.step = .skip r') :
    ∃ s', s.turn = some s' ∧ Beside r' (bodies ++ [body_at r.buf r.off total]) s' := by
  obtain ⟨hlo, hhi⟩ := read_block_at_bounds hread
  have hend := r.end_le
  obtain ⟨i, hidb, hlink, hres⟩ := idb_agrees hlo (show r.off + total ≤ r.buf.length by omega)
    ((hclean BLOCK_IDB total hread).1 rfl)
  rw [Reader.step_of_idb hread] at h
  rw [← Step.skip.inj h]
  obtain ⟨hblob, -, hendian, hifaces⟩ := s.block_frame BLOCK_IDB (body_at r.buf r.off total)
  rw [if_pos rfl, hs.endian, hidb] at hifaces
  refine ⟨_, beside_ordinary hs hread (by decide), ?_⟩
  refine ⟨hblob.trans hs.blob, rfl, hendian.trans hs.endian, ?_, ?_⟩
  · show List.map (idb r.swapped) _ = List.map some (s.block BLOCK_IDB _).ifaces
    rw [hifaces, List.map_append, List.map_append, hs.bodies, List.map_singleton, hidb]
    rfl
  · show List.map _ (s.block BLOCK_IDB _).ifaces = _
    rw [hifaces]
    dsimp only
    rw [List.map_append, List.map_append, hs.ifaces]
    show _ ++ [(i.linktype.toUInt32, i.tsresol)] = _ ++ [(_, _)]
    rw [hlink, hres]

/-- On any other block that is skipped they stay beside each other. -/
theorem beside_skip (hs : Beside r bodies s) {btype : UInt32} {total : ℕ}
    (hidb : btype ≠ BLOCK_IDB) (hbuf : r'.buf = r.buf)
    (hoff : r'.off = r.off + total) (hswapped : r'.swapped = r.swapped) (hifaces : r'.ifaces = r.ifaces) :
    Beside r' bodies { s.block btype (body_at r.buf r.off total) with pos := r.off + total } := by
  obtain ⟨hblob, -, hendian, hsame⟩ := s.block_frame btype (body_at r.buf r.off total)
  rw [if_neg hidb] at hsame
  refine ⟨hblob.trans (hs.blob.trans hbuf.symm), hoff.symm,
    hendian.trans (hs.endian.trans hswapped.symm), ?_, ?_⟩
  · show _ = List.map some (s.block btype _).ifaces
    rw [hsame, hswapped, hs.bodies]
  · show List.map _ (s.block btype _).ifaces = _
    rw [hsame, hifaces, hs.ifaces]

/-- What a packet block that yields a record holds. -/
theorem packet_at_yield {buf : Bytes} {swapped : Bool} {ifaces : List Iface} {header : FileHeader}
    {btype : UInt32} {start total : ℕ} {rec : Record}
    (h : packet_at buf swapped ifaces header btype start total = .yield rec) :
    32 ≤ total ∧ ∃ id iface hi lo caplen,
      (if btype = BLOCK_PB then (rd16 buf (start + 8) swapped).map UInt16.toUInt32
        else rd32 buf (start + 8) swapped) = some id ∧ ifaces[id.toNat]? = some iface ∧
      rd32 buf (start + 12) swapped = some hi ∧ rd32 buf (start + 16) swapped = some lo ∧
      rd32 buf (start + 20) swapped = some caplen ∧ rd32 buf (start + 24) swapped = some rec.origlen ∧
      slice_checked buf (start + 28) (start + 28 + caplen.toNat) = some rec.data ∧
      (rec.ts_sec, rec.ts_frac) = split_ts (hi.toNat * 2 ^ 32 + lo.toNat) iface.tsresol := by
  unfold packet_at at h
  split at h
  · cases h
  · rename_i hshort
    refine ⟨by omega, ?_⟩
    dsimp only at h
    split at h
    · cases h
    · rename_i id hid
      split at h
      · cases h
      · rename_i hknown
        obtain ⟨iface, hiface⟩ := Option.ne_none_iff_exists'.1 hknown
        split at h
        · rename_i hi lo caplen origlen hhi hlo hcap horig
          split at h
          · cases h
          · split at h
            · cases h
            · rename_i data hdata
              have hrec := Pass.yield.inj h
              rw [toNat_halves, tsresol_for, hiface] at hrec
              rw [← hrec]
              exact ⟨id, iface, hi, lo, caplen, hid, hiface, hhi, hlo, hcap, horig, hdata, rfl⟩
        · cases h

/-- What a simple packet block yields: untimed, with the length from its third word. -/
theorem simple_at_yield {buf : Bytes} {swapped : Bool} {start total : ℕ} {rec : Record}
    (h : simple_at buf swapped start total = .yield rec) :
    16 ≤ total ∧ rd32 buf (start + 8) swapped = some rec.origlen ∧ rec.ts_sec = 0 ∧ rec.ts_frac = 0 ∧
      ∃ n, slice_checked buf (start + 12) (start + 12 + n) = some rec.data := by
  unfold simple_at at h
  split at h
  · cases h
  · refine ⟨by omega, ?_⟩
    split at h
    · cases h
    · rename_i origlen horig
      dsimp only at h
      split at h
      · cases h
      · rename_i data hdata
        rw [← Pass.yield.inj h]
        exact ⟨horig, rfl, rfl, _, hdata⟩

theorem data_at {buf data : Bytes} {k n : ℕ} (h : slice_checked buf k (k + n) = some data) :
    slice_checked buf k (k + data.length) = some data := by
  have hsame : data.length = n := by
    unfold slice_checked at h
    split at h
    · rename_i hin
      rw [← Option.some.inj h, length_slice hin.2]
      omega
    · cases h
  rw [hsame, h]

/-- The interface at a place is the same to both sides. -/
theorem Beside.lookup (hs : Beside r bodies s) {id : ℕ} {iface : Iface}
    (h : r.ifaces[id]? = some iface) : ∃ i body, s.ifaces[id]? = some i ∧ bodies[id]? = some body ∧
      idb r.swapped body = some i ∧ i.linktype.toUInt32 = iface.linktype ∧ i.tsresol = iface.tsresol := by
  have hpair := congrArg (fun l => l[id]?) hs.ifaces
  have hbody := congrArg (fun l => l[id]?) hs.bodies
  rw [List.getElem?_map, List.getElem?_map, h] at hpair
  rw [List.getElem?_map, List.getElem?_map] at hbody
  cases hi : s.ifaces[id]? with
  | none =>
    rw [hi] at hpair
    cases hpair
  | some i =>
    rw [hi, Option.map_some, Option.map_some, Option.some.injEq, Prod.mk.injEq] at hpair
    rw [hi] at hbody
    obtain ⟨body, hb, hidb⟩ := Option.map_eq_some_iff.1 hbody
    exact ⟨i, body, rfl, hb, hidb, hpair.1, hpair.2⟩

/-- A packet block is kept with what its interface says. -/
theorem packet_agrees (hs : Beside r bodies s) {btype : UInt32} {total : ℕ} {rec : Record}
    (hpacket : btype = BLOCK_EPB ∨ btype = BLOCK_PB)
    (hread : read_block_at r.buf r.swapped r.end_ r.off = some (btype, total))
    (hyield : packet_at r.buf r.swapped r.ifaces r.header btype r.off total = .yield rec) :
    ∃ e, packet_block s.endian btype (body_at r.buf r.off total) s.ifaces s.process_information = some e ∧
      Agrees r bodies rec (r.off + 28) e := by
  -- The words of the record are read at the same places of the body.
  obtain ⟨hlo, hhi⟩ := read_block_at_bounds hread
  have hend := r.end_le
  have hin : r.off + total ≤ r.buf.length := by omega
  have htype := (read_block_at_type hread).2
  obtain ⟨hlarge, id, iface, hi, lo, caplen, hid, hiface, htshigh, htslow, hcap, horig, hdata, htime⟩ :=
    packet_at_yield hyield
  obtain ⟨i, body, hi', hbody, hidb, hlink, hres⟩ := hs.lookup hiface
  have hlen := length_body_at hin
  have hword : ∀ {o v}, o + 4 ≤ 20 → rd32 r.buf (r.off + 8 + o) r.swapped = some v →
      rd32 (body_at r.buf r.off total) o r.swapped = some v := by
    intro o v ho hv
    rw [rd32_body_at hin hlo (by omega), hv]
  have hname : (if btype = BLOCK_PB then
      (rd16 (body_at r.buf r.off total) 0 r.swapped).map UInt16.toUInt32
      else rd32 (body_at r.buf r.off total) 0 r.swapped) = some id := by
    rw [rd16_body_at hin hlo (by omega), rd32_body_at hin hlo (by omega)]
    exact hid
  -- The interface is named in the old way or in the new one, by the block's type.
  have hnamed : named r = some id.toNat := by
    unfold named
    rw [htype]
    dsimp only
    rcases hpacket with rfl | rfl
    · rw [if_neg (by decide)] at hid
      rw [if_pos rfl, hid]
      rfl
    · rw [if_pos rfl] at hid
      rw [if_neg (by decide), if_pos rfl]
      obtain ⟨v, hv, hid'⟩ := Option.map_eq_some_iff.1 hid
      rw [hv, ← hid', Option.map_some, UInt16.toNat_toUInt32]
  -- The other walk makes its entry of the same words.
  unfold packet_block
  rw [if_neg (by omega), hs.endian]
  dsimp only
  rw [hname, hword (by omega) htshigh, hword (by omega) htslow, hword (by omega) hcap,
    hword (by omega) horig]
  dsimp only
  rw [hi']
  refine ⟨_, rfl, data_at hdata, rfl, ?_, ?_⟩
  · exact ⟨id.toNat, iface, body, i, hnamed, hiface, hbody, hidb, rfl, hlink, rfl, hres, fun _ => rfl⟩
  · dsimp only
    refine ⟨htshigh, htslow, ?_⟩
    rw [htime, hres]

/-- A simple packet is kept with what the first interface says. -/
theorem simple_agrees (hs : Beside r bodies s) (hclean : Clean r) {total : ℕ} {rec : Record}
    (hread : read_block_at r.buf r.swapped r.end_ r.off = some (BLOCK_SPB, total))
    (hyield : simple_at r.buf r.swapped r.off total = .yield rec) :
    ∃ e, simple_packet s.endian (body_at r.buf r.off total) s.ifaces = some e ∧
      Agrees r bodies rec (r.off + 12) e := by
  -- A simple packet is on the first interface, so there must be one.
  obtain ⟨hlo, hhi⟩ := read_block_at_bounds hread
  have hend := r.end_le
  have hin : r.off + total ≤ r.buf.length := by omega
  have htype := (read_block_at_type hread).2
  obtain ⟨hlarge, horig, hsec, hfrac, n, hdata⟩ := simple_at_yield hyield
  have hsome := (hclean BLOCK_SPB total hread).2 rfl
  obtain ⟨iface, rest, hifaces⟩ := List.exists_cons_of_ne_nil hsome
  have hfirst : r.ifaces[0]? = some iface := by
    rw [hifaces]
    rfl
  obtain ⟨i, body, hi, hbody, hidb, hlink, hres⟩ := hs.lookup hfirst
  have hnamed : named r = some 0 := by
    unfold named
    rw [htype]
    rfl
  have horig' : rd32 (body_at r.buf r.off total) 0 r.swapped = some rec.origlen := by
    rw [rd32_body_at hin hlo (by omega)]
    exact horig
  have hcons : ∃ more, s.ifaces = i :: more := by
    cases hlist : s.ifaces with
    | nil =>
      rw [hlist] at hi
      cases hi
    | cons j more =>
      rw [hlist] at hi
      exact ⟨more, by rw [Option.some.inj hi]⟩
  obtain ⟨more, hmore⟩ := hcons
  unfold simple_packet
  rw [hmore, hs.endian, horig']
  refine ⟨_, rfl, data_at hdata, rfl, ?_, ?_⟩
  · exact ⟨0, iface, body, i, hnamed, hfirst, hbody, hidb, rfl, hlink, rfl, hres, fun h => absurd rfl h⟩
  · exact ⟨htype, hsec, hfrac⟩

theorem keep_some (s : Walker) (k : ℕ) (e : Metadata) : (s.keep k (some e)).metas k = some e :=
  if_pos rfl

/-- **A record is kept under its data as its own block and interface tell.** -/
theorem beside_yield (hs : Beside r bodies s) (hclean : Clean r) {rec : Record}
    (h : r.step = .yield rec r') :
    ∃ s' e, s.turn = some s' ∧ Beside r' bodies s' ∧ data_off r < s'.pos + 12 ∧
      s'.metas (data_off r) = some e ∧ Agrees r bodies rec (data_off r) e := by
  -- A record comes of a packet block of either kind; in both the walks agree and go on beside each
  -- other.
  have hne := yield_not_header h
  obtain ⟨btype, total, hread, hshb⟩ := step_reads (by rw [h]; exact nofun) hne
  have hturn := beside_ordinary hs hread hshb
  rw [step_ordinary hread hshb] at h
  split at h
  · cases h
  · cases h
  · rename_i rec' hyield
    obtain ⟨hrec, hr'⟩ := Step.yield.inj h
    subst hrec
    have hidb : btype ≠ BLOCK_IDB := by
      rintro rfl
      unfold block_at at hyield
      rw [if_pos rfl] at hyield
      cases hyield
    have hbeside : Beside r' bodies
        { s.block btype (body_at r.buf r.off total) with pos := r.off + total } := by
      rw [← hr']
      exact beside_skip hs hidb rfl rfl rfl rfl
    have htype := (read_block_at_type hread).2
    unfold block_at at hyield
    rw [if_neg hidb] at hyield
    by_cases hpacket : btype = BLOCK_EPB ∨ btype = BLOCK_PB
    -- The data stand behind five words, or behind one in a simple packet.
    · have hoff : data_off r = r.off + 28 := by
        refine if_neg fun hspb => ?_
        rw [htype] at hspb
        rcases hpacket with rfl | rfl <;> exact absurd (Option.some.inj hspb) (by decide)
      rw [if_pos hpacket] at hyield
      obtain ⟨e, he, hagrees⟩ := packet_agrees hs hpacket hread hyield
      rw [hoff]
      refine ⟨_, e, hturn, hbeside, ?_, ?_, hagrees⟩
      · have hlarge := (packet_at_yield hyield).1
        dsimp only
        omega
      · dsimp only
        unfold Walker.block
        rw [if_neg hidb, if_pos hpacket.symm, he, hs.pos]
        exact keep_some s (r.off + 28) e
    · rw [if_neg hpacket] at hyield
      split at hyield
      · rename_i hspb
        subst hspb
        have hoff : data_off r = r.off + 12 := if_pos htype
        obtain ⟨e, he, hagrees⟩ := simple_agrees hs hclean hread hyield
        rw [hoff]
        refine ⟨_, e, hturn, hbeside, ?_, ?_, hagrees⟩
        · have hlarge := (simple_at_yield hyield).1
          dsimp only
          omega
        · dsimp only
          unfold Walker.block
          rw [if_neg hidb, if_neg (fun hp => hpacket hp.symm), if_pos rfl, he, hs.pos]
          exact keep_some s (r.off + 12) e
      · cases hyield

/-- A turn is made wherever it is due, so the turns counted are those taken. -/
theorem walk_turn {n : ℕ} {s' : Walker} (hroom : s.blob.length ≤ s.pos + n) (h : s.turn = some s')
    (hin : s'.pos ≤ s.blob.length) :
    ∃ m, s.walk n = s'.walk m ∧ s.blob.length ≤ s'.pos + m := by
  have hpos := (turn_keeps h).1
  cases n with
  | zero => omega
  | succ n =>
    refine ⟨n, ?_, by omega⟩
    rw [Walker.walk, h]

/-- One step and its turn keep the walks beside each other, and what is left of Python's makes the
same of the file. -/
theorem beside_on {metas : ℕ → Option Metadata} {bodies' : List Bytes} {n : ℕ} {s' : Walker}
    (hs : Beside r bodies s) (hroom : s.blob.length ≤ s.pos + n) (hmetas : metas = (s.walk n).metas)
    (hturn : s.turn = some s') (hs' : Beside r' bodies' s') (hahead : Reader.Ahead r r') :
    ∃ s n, Beside r' bodies' s ∧ s.blob.length ≤ s.pos + n ∧ metas = (s.walk n).metas := by
  have hin := hahead.off_le
  obtain ⟨m, hwalk, hroom'⟩ := walk_turn hroom hturn (by rw [hs'.pos, hs.blob]; exact hin)
  refine ⟨s', m, hs', ?_, by rw [hmetas, hwalk]⟩
  rw [hs'.blob, hahead.buf_eq, ← hs.blob]
  exact hroom'

/-- **Wherever the Rust reader's walk comes, Python's is beside it**, with turns enough left. -/
theorem comes_beside (hclean : ∀ recs r bodies, Comes file recs r bodies → Clean r)
    (hcomes : Comes file recs r bodies) :
    ∃ s n, Beside r bodies s ∧ s.blob.length ≤ s.pos + n ∧
      pcapng_metadata file = (s.walk n).metas := by
  induction hcomes with
  | @start swapped r h =>
    -- Python's first turn takes the block `Reader::new` entered the file by
    obtain ⟨swapped', btype, total, horder, hread, hbuf, hoff, hswapped, hifaces, -⟩ :=
      enter_section_inv (show (Reader.opening file swapped).enter_section
        (Reader.opening file swapped).off = some r from h.enters)
    obtain ⟨s₀, hs₀⟩ : ∃ s₀ : Walker, s₀ = ⟨file, 0, false, [], [], fun _ => none⟩ := ⟨_, rfl⟩
    obtain ⟨s₁, hs₁⟩ : ∃ s₁ : Walker, s₁ = ⟨file, 0 + total, swapped', [], [], fun _ => none⟩ :=
      ⟨_, rfl⟩
    have hturn : s₀.turn = some s₁ := by
      rw [hs₀, hs₁]
      exact turn_header (e := false) h.type_eq horder hread
    have hin : s₁.pos ≤ s₀.blob.length := by
      rw [hs₀, hs₁]
      exact (read_block_at_bounds hread).2
    have hfuel : s₀.blob.length ≤ s₀.pos + file.length := by
      rw [hs₀]
      exact Nat.le_add_left _ _
    obtain ⟨n, hwalk, hroom⟩ := walk_turn hfuel hturn hin
    have hblob : s₁.blob = s₀.blob := by rw [hs₀, hs₁]
    refine ⟨s₁, n, ?_, hblob ▸ hroom, ?_⟩
    · rw [hs₁]
      exact ⟨hbuf.symm, hoff.symm, hswapped.symm, rfl, by rw [hifaces]; rfl⟩
    · rw [← hwalk, hs₀]
      rfl
  | @enter recs r r' bodies hr htype h ih =>
    obtain ⟨s, n, hs, hroom, hmetas⟩ := ih
    obtain ⟨s', hturn, hs'⟩ := beside_header hs htype h
    exact beside_on hs hroom hmetas hturn hs' (Reader.step_skip_ahead h)
  | @interface recs r r' bodies total hr hread h ih =>
    obtain ⟨s, n, hs, hroom, hmetas⟩ := ih
    obtain ⟨s', hturn, hs'⟩ := beside_interface hs (hclean _ _ _ hr) hread h
    exact beside_on hs hroom hmetas hturn hs' (Reader.step_skip_ahead h)
  | @skip recs r r' bodies btype total hr hread hshb hidb h ih =>
    obtain ⟨s, n, hs, hroom, hmetas⟩ := ih
    have hturn := beside_ordinary hs hread hshb
    have hahead := Reader.step_skip_ahead h
    rw [step_ordinary hread hshb] at h
    split at h
    · cases h
    · rename_i ifaces hskip
      have hsame := block_at_skip hidb hskip
      have hr' := Step.skip.inj h
      have hs' : Beside r' bodies
          { s.block btype (body_at r.buf r.off total) with pos := r.off + total } := by
        rw [← hr']
        exact beside_skip hs hidb rfl rfl rfl hsame
      exact beside_on hs hroom hmetas hturn hs' hahead
    · cases h
  | @yield recs r r' bodies rec hr h ih =>
    obtain ⟨s, n, hs, hroom, hmetas⟩ := ih
    obtain ⟨s', e, hturn, hs', -⟩ := beside_yield hs (hclean _ _ _ hr) h
    exact beside_on hs hroom hmetas hturn hs' (Reader.step_yield_ahead h)

/-- The walk comes to every record that is read. -/
theorem comes_to {rec : Record} {i : ℕ} (hcomes : Comes file recs r bodies) (hgoing : r.done = false)
    (h : r.collect[i]? = some rec) :
    ∃ recs' r' bodies' r'', Comes file recs' r' bodies' ∧ recs'.length = recs.length + i ∧
      r'.step = .yield rec r'' := by
  -- By the octets left: each step but the last moves the reader on.
  induction hn : r.buf.length - r.off using Nat.strong_induction_on generalizing recs r bodies i with
  | _ n ih =>
    cases hstep : r.step with
    | stop =>
      rw [Reader.collect_of_stop hgoing hstep] at h
      cases h
    | skip r₁ =>
      have hlt := (Reader.step_skip_ahead hstep).lt
      have hgoing₁ : r₁.done = false := (Reader.step_done (Or.inl hstep)).trans hgoing
      rw [Reader.collect_of_skip hgoing hgoing₁ hstep] at h
      have hnext : ∃ bodies₁, Comes file recs r₁ bodies₁ := by
        by_cases htype : rd32 r.buf r.off r.swapped = some BLOCK_SHB
        · exact ⟨[], .enter hcomes htype hstep⟩
        · obtain ⟨btype, total, hread, hshb⟩ := step_reads (by rw [hstep]; exact nofun) htype
          by_cases hidb : btype = BLOCK_IDB
          · subst hidb
            exact ⟨_, .interface hcomes hread hstep⟩
          · exact ⟨bodies, .skip hcomes hread hshb hidb hstep⟩
      obtain ⟨bodies₁, hnext⟩ := hnext
      exact ih _ (hn ▸ hlt) hnext hgoing₁ h rfl
    | yield rec₁ r₁ =>
      have hlt := (Reader.step_yield_ahead hstep).lt
      have hgoing₁ : r₁.done = false := (Reader.step_done (Or.inr ⟨_, hstep⟩)).trans hgoing
      rw [Reader.collect_of_yield hgoing hstep] at h
      cases i with
      | zero =>
        rw [List.getElem?_cons_zero] at h
        rw [Option.some.inj h] at hstep
        exact ⟨recs, r, bodies, r₁, hcomes, rfl, hstep⟩
      | succ i =>
        rw [List.getElem?_cons_succ] at h
        obtain ⟨recs', r', bodies', r'', hcomes', hlen, hyield⟩ :=
          ih _ (hn ▸ hlt) (.yield hcomes hstep) hgoing₁ h rfl
        refine ⟨recs', r', bodies', r'', hcomes', ?_, hyield⟩
        rw [hlen, List.length_append, List.length_singleton]
        omega

end Together

/-- A frame of four octets, at the seventh second. -/
def frame : Record where
  ts_sec := 7
  ts_frac := 0
  caplen := 4
  origlen := 4
  data := [1, 2, 3, 4]

/-- One interface and the frame on it. -/
def whole_file : Bytes :=
  write_shb ++ write_idb 1 65535 false ++ write_epb 0 7 0 [1, 2, 3, 4] 4 false

/-- An interface block of four octets before the other, and the frame on the second. -/
def short_file : Bytes :=
  write_shb ++ write_block BLOCK_IDB [1, 0, 0, 0] ++ write_idb 1 65535 false ++
    write_epb 1 7 0 [1, 2, 3, 4] 4 false

def ethernet : Iface := ⟨1, DEFAULT_TSRESOL⟩

/-- The reader of such a file behind its section header. -/
def reader_at (file : Bytes) (off : ℕ) (ifaces : List Iface) : Reader where
  buf := file
  off := off
  end_ := file.length
  swapped := false
  ifaces := ifaces
  done := false
  header := ⟨false, 0, DEFAULT_TSRESOL⟩
  end_le := length_file_le file

theorem whole_opens : Opens whole_file false (reader_at whole_file 28 []) :=
  ⟨by decide, by decide, by decide, by rfl⟩

set_option maxRecDepth 20000 in
theorem whole_steps :
    (reader_at whole_file 28 []).step = .skip (reader_at whole_file 48 [ethernet]) ∧
      (reader_at whole_file 48 [ethernet]).step
        = .yield frame (reader_at whole_file 84 [ethernet]) ∧
      (reader_at whole_file 84 [ethernet]).step = .stop :=
  ⟨by rfl, by rfl, by rfl⟩

/-- The readers the whole file can come to, one for each block. -/
theorem whole_comes {recs : List Record} {r : Reader} {bodies : List Bytes}
    (h : Comes whole_file recs r bodies) :
    r = reader_at whole_file 28 [] ∨ r = reader_at whole_file 48 [ethernet] ∨
      r = reader_at whole_file 84 [ethernet] := by
  obtain ⟨hfirst, hsecond, hthird⟩ := whole_steps
  -- The one block that is skipped is the interface's.
  have hskip : ∀ {r r' : Reader}, r = reader_at whole_file 28 [] ∨
      r = reader_at whole_file 48 [ethernet] ∨ r = reader_at whole_file 84 [ethernet] →
      r.step = .skip r' → r' = reader_at whole_file 48 [ethernet] := by
    rintro r r' (rfl | rfl | rfl) h
    · exact (Step.skip.inj (hfirst.symm.trans h)).symm
    · cases hsecond.symm.trans h
    · cases hthird.symm.trans h
  -- Three readers in all: at the interface block, at the frame, at the end.
  induction h with
  | start h =>
    left
    have horder := h.order_eq
    rw [whole_opens.order_eq] at horder
    have henters := h.enters
    rw [← Option.some.inj horder, whole_opens.enters] at henters
    exact (Option.some.inj henters).symm
  | enter _ _ h ih => exact Or.inr (Or.inl (hskip ih h))
  | interface _ _ h ih => exact Or.inr (Or.inl (hskip ih h))
  | skip _ _ _ _ h ih => exact Or.inr (Or.inl (hskip ih h))
  | yield _ h ih =>
    rcases ih with rfl | rfl | rfl
    · cases hfirst.symm.trans h
    · exact Or.inr (Or.inr (Step.yield.inj (hsecond.symm.trans h)).2.symm)
    · cases hthird.symm.trans h

/-- None of them has a short interface block ahead. -/
theorem whole_clean (recs : List Record) (r : Reader) (bodies : List Bytes)
    (h : Comes whole_file recs r bodies) : Clean r := by
  have hidb : read_block_at whole_file false 84 28 = some (BLOCK_IDB, 20) := by rfl
  have hepb : read_block_at whole_file false 84 48 = some (BLOCK_EPB, 36) := by rfl
  have hend : read_block_at whole_file false 84 84 = none := by rfl
  have hnone : resolutions false ((body_at whole_file 28 20).drop 8)
      ((body_at whole_file 28 20).drop 8).length 0 = [] := by rfl
  rcases whole_comes h with rfl | rfl | rfl
  · intro btype total hread
    cases hidb.symm.trans hread
    refine ⟨fun _ => ⟨by decide, fun value hvalue => ?_⟩, fun hspb => absurd hspb (by decide)⟩
    rw [show (reader_at whole_file 28 []).buf = whole_file from rfl] at hvalue
    rw [show (reader_at whole_file 28 []).off = 28 from rfl,
      show (reader_at whole_file 28 []).swapped = false from rfl, hnone] at hvalue
    cases hvalue
  · intro btype total hread
    cases hepb.symm.trans hread
    exact ⟨fun hidb => absurd hidb (by decide), fun hspb => absurd hspb (by decide)⟩
  · intro btype total hread
    cases hend.symm.trans hread

theorem whole_collect : ∃ opened, Reader.new whole_file = .ok opened ∧ opened.collect = [frame] := by
  obtain ⟨hfirst, hsecond, hthird⟩ := whole_steps
  obtain ⟨hcollect, hlead, -⟩ := (reader_at whole_file 28 []).lead_spec rfl
  refine ⟨_, (new_iff whole_file _).2 ⟨false, _, whole_opens, rfl⟩, ?_⟩
  rw [Reader.collect_adopt _ hlead, hcollect, Reader.collect_of_skip rfl rfl hfirst,
    Reader.collect_of_yield rfl hsecond, Reader.collect_of_stop rfl hthird]

set_option maxRecDepth 20000 in
/-- And over the short one. -/
theorem short_steps :
    (reader_at short_file 28 []).step = .skip (reader_at short_file 44 [ethernet]) ∧
      (reader_at short_file 44 [ethernet]).step
        = .skip (reader_at short_file 64 [ethernet, ethernet]) ∧
      (reader_at short_file 64 [ethernet, ethernet]).step
        = .yield frame (reader_at short_file 100 [ethernet, ethernet]) ∧
      (reader_at short_file 100 [ethernet, ethernet]).step = .stop :=
  ⟨by rfl, by rfl, by rfl, by rfl⟩

end Wiry.Pcapio
