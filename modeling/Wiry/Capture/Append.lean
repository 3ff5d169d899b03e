/-
Appending to a capture: `tail_block_whole`, `check_appendable` and the construction of
`CaptureWriter` in `crates/wiry-py/src/writer.rs`, and `read_pcap` of `lib.rs`, which reads the
result.

The target of an append holds octets already; a file is probed by its head and a buffer whole.
-/
import Mathlib.Data.Rat.Defs
import Wiry.Capture.RoundTrip

set_option autoImplicit false

namespace Wiry.Capture

open Packet Endian Pcapng

/-! ## The writer -/

/-- Enough for a section header and the interface descriptions that follow it. -/
def HEAD_PROBE : ℕ := 64 * 1024

/-- `is_pcapng`. -/
def is_pcapng (buf : Bytes) : Bool := rd32 buf 0 false = some BLOCK_SHB

/-- The last four octets say where the final block began; both byte orders are tried. -/
def tail_block_whole (held : Bytes) : Bool :=
  let word_at (o : ℕ) := from_le32 (slice held o (o + 4))
  if held.length < 12 ∨ held.length % 4 ≠ 0 then false
  else
    let last := word_at (held.length - 4)
    [last.toNat, (swap32 last).toNat].any fun total =>
      if total < 12 ∨ held.length < total ∨ total % 4 ≠ 0 then false
      else
        let lead := word_at (held.length - total + 4)
        lead.toNat = total ∨ (swap32 lead).toNat = total

/-- Why an append is refused. -/
inductive Refusal where
  | wide_link_type (linktype : UInt32)
  | not_pcapng
  | bad_pcapng (e : PcapngError)
  | is_pcapng
  | bad_pcap (e : Pcap.PcapError)
  | link_type (described given : UInt32)
  | resolution (file_nanos nanos : Bool)
  | big_endian
  | cut_off

def check_appendable (head : Bytes) (pcapng : Bool) (linktype : UInt32) (nanos : Bool) :
    Except Refusal Unit :=
  if pcapng then
    if !is_pcapng head then .error .not_pcapng
    else
      match Reader.new head with
      | .error e => .error (.bad_pcapng e)
      | .ok r =>
        if r.header.linktype ≠ linktype then .error (.link_type r.header.linktype linktype)
        else .ok ()
  else if is_pcapng head then .error .is_pcapng
  else
    match Pcap.parse_header head with
    | .error e => .error (.bad_pcap e)
    | .ok h =>
      if h.linktype ≠ linktype then .error (.link_type h.linktype linktype)
      else if h.nanos ≠ nanos then .error (.resolution h.nanos nanos)
      else if h.swapped then .error .big_endian
      else .ok ()

/-- What is written to: a file at a path, or a buffer for the caller to finish. -/
inductive Target where
  | path
  | buffer

/-- The octets an append is decided from. -/
def Target.head (t : Target) (held : Bytes) : Bytes :=
  match t with
  | .path => held.take HEAD_PROBE
  | .buffer => held

/-- `CaptureWriter::new` with `append`: the octets put behind the target's before any record. -/
def CaptureWriter.new (t : Target) (pcapng : Bool) (linktype snaplen : UInt32) (nanos : Bool)
    (held : Bytes) : Except Refusal Bytes :=
  if pcapng ∧ 2 ^ 16 ≤ linktype.toNat then .error (.wide_link_type linktype)
  else
    let head :=
      if pcapng then write_shb ++ write_idb linktype snaplen nanos
      else if t.head held = [] then Pcap.write_header linktype snaplen nanos else []
    if t.head held = [] then .ok head
    else
      match check_appendable (t.head held) pcapng linktype nanos with
      | .error e => .error e
      | .ok () => if pcapng && !tail_block_whole held then .error .cut_off else .ok head

/-- `encode`: a wire length of 0 is the captured length. -/
def encode (pcapng nanos : Bool) (w : Pcap.Written) : Bytes :=
  let origlen := if w.origlen = 0 then UInt32.ofNat w.data.length else w.origlen
  if pcapng then write_epb 0 w.ts_sec w.ts_frac w.data origlen nanos
  else Pcap.write_record w.ts_sec w.ts_frac w.data origlen

/-! ## The reader -/

/-- `read_pcap`: whether fractions are nanoseconds, and the records. -/
def read_pcap (data : Bytes) : Option (Bool × List Record) :=
  if is_pcapng data then
    match Reader.new data with
    | .error _ => none
    | .ok r => some (r.header.nanos, r.collect)
  else
    match Pcap.Reader.new data with
    | .error _ => none
    | .ok r => some (r.header.nanos, r.collect)

/-- Seconds, the fraction read at a scale. -/
def time_at (nanos : Bool) (ts_sec ts_frac : UInt32) : ℚ :=
  ts_sec.toNat + (ts_frac.toNat : ℚ) / resolution nanos

/-- Reading the file gives what the target gave before, and behind it the data and the times of the
records written. -/
def Keeps {nanos : Bool} (held file : Bytes) (recs : List (Captured nanos)) : Prop :=
  ∃ scale olds news, read_pcap held = some (scale, olds) ∧
    read_pcap file = some (scale, olds ++ news) ∧
    news.map (fun r => (r.data, time_at scale r.ts_sec r.ts_frac))
      = recs.map fun w => (w.data, time_at nanos w.ts_sec w.ts_frac)

/-! ## Walks -/

/-- The records of a pcap file one by one. -/
inductive Pcap.Reader.Walk : Pcap.Reader → List Record → Pcap.Reader → Prop
  | here (r : Pcap.Reader) : Walk r [] r
  | next {r r' r'' : Pcap.Reader} {rec : Record} {recs : List Record}
      (h : r.next = some (rec, r')) (hs : Walk r' recs r'') : Walk r (rec :: recs) r''

/-- Where the section a reader has entered says it ends. -/
def Pcapng.section_end (r : Reader) (off : ℕ) : Option ℕ :=
  match rd64 r.buf (off + 16) r.swapped with
  | none => none
  | some len => if len.toNat ≥ 2 ^ 63 then none else some (r.off + len.toNat)

/-- The blocks of a pcapng file one by one, with what each section says of its own end. -/
inductive Pcapng.Reader.Walk : Reader → Option ℕ → List Record → Reader → Option ℕ → Prop
  | here (r : Reader) (d : Option ℕ) : Walk r d [] r d
  | enter {r r' r'' : Reader} {d d' : Option ℕ} {recs : List Record}
      (htype : rd32 r.buf r.off r.swapped = some BLOCK_SHB) (h : r.step = .skip r')
      (hs : Walk r' (section_end r' r.off) recs r'' d') : Walk r d recs r'' d'
  | skip {r r' r'' : Reader} {d d' : Option ℕ} {recs : List Record}
      (htype : rd32 r.buf r.off r.swapped ≠ some BLOCK_SHB) (h : r.step = .skip r')
      (hs : Walk r' d recs r'' d') : Walk r d recs r'' d'
  | yield {r r' r'' : Reader} {d d' : Option ℕ} {rec : Record} {recs : List Record}
      (h : r.step = .yield rec r') (hs : Walk r' d recs r'' d') : Walk r d (rec :: recs) r'' d'

/-- The walk of a pcap file ends with the file. -/
def Pcap.WalkEnds (held : Bytes) : Prop :=
  ∃ r recs r', Pcap.Reader.new held = .ok r ∧ r.Walk recs r' ∧ r'.off = held.length

/-- The walk of a pcapng file ends with the file, in a section that does not end there too. -/
def Pcapng.WalkEnds (held : Bytes) : Prop :=
  ∃ swapped recs r d, (rd32 held 8 false).bind order_of = some swapped ∧
    (Reader.opening held swapped).Walk none recs r d ∧ r.off = held.length ∧
    ∀ e ∈ d, held.length + 12 ≤ e

/-- The target can be appended to: what is put behind it is reached, and read at its own scale. -/
def Appendable (held : Bytes) (nanos : Bool) : Prop :=
  if is_pcapng held then
    Pcapng.WalkEnds held ∧ (read_pcap held).map Prod.fst = some nanos
  else Pcap.WalkEnds held

/-! ## Pcap -/

section Pcap

theorem rd_at_append {buf : Bytes} (more : Bytes) {o : ℕ} (h : o + 4 ≤ buf.length)
    (swapped : Bool) : Pcap.rd_at (buf ++ more) o swapped = Pcap.rd_at buf o swapped := by
  unfold Pcap.rd_at slice
  rw [List.take_append_of_le_length h]

/-- A whole header is read alike with records behind it. -/
theorem parse_header_append {held : Bytes} {h : Pcap.FileHeader} (more : Bytes)
    (hparse : Pcap.parse_header held = .ok h) :
    Pcap.parse_header (held ++ more) = .ok h ∧ 24 ≤ held.length := by
  unfold Pcap.parse_header at hparse ⊢
  dsimp only at hparse ⊢
  split at hparse
  · cases hparse
  · rename_i hlen
    have hmagic := rd_at_append more (show 0 + 4 ≤ held.length by omega) false
    have hsnap := fun s => rd_at_append more (show 16 + 4 ≤ held.length by omega) s
    have hlink := fun s => rd_at_append more (show 20 + 4 ≤ held.length by omega) s
    rw [List.length_append, if_neg (by omega)]
    simp only [hmagic, hsnap, hlink]
    exact ⟨hparse, by omega⟩

/-- A record that is read is read in a longer file too. -/
theorem pcap_next_append {r r' : Pcap.Reader} {rec : Record} (more : Bytes)
    (h : r.next = some (rec, r')) :
    Pcap.Reader.next { r with buf := r.buf ++ more }
      = some (rec, { r' with buf := r'.buf ++ more }) := by
  unfold Pcap.Reader.next at h ⊢
  dsimp only at h ⊢
  split at h
  · cases h
  · rename_i hroom
    -- The header's words and the data lie in the old octets, so they read alike.
    have hword := fun o (ho : o + 4 ≤ r.buf.length) => rd_at_append more ho r.header.swapped
    simp only [hword r.off (by omega), hword (r.off + 4) (by omega), hword (r.off + 8) (by omega),
      hword (r.off + 12) (by omega), List.length_append]
    rw [if_neg (by omega)]
    split at h
    · cases h
    · rename_i hdata
      have hslice : slice (r.buf ++ more) (r.off + 16)
          (r.off + 16 + (Pcap.rd_at r.buf (r.off + 8) r.header.swapped).toNat)
          = slice r.buf (r.off + 16)
            (r.off + 16 + (Pcap.rd_at r.buf (r.off + 8) r.header.swapped).toNat) := by
        unfold slice
        rw [List.take_append_of_le_length (by omega)]
      have hpair := Option.some.inj h
      rw [Prod.mk.injEq] at hpair
      rw [if_neg (by omega), hslice, ← hpair.1, ← hpair.2]

/-- After a walk over the first records the reader collects those records and then what the reader
behind them collects, with more octets appended or not. -/
theorem pcap_collect_walk {r r' : Pcap.Reader} {recs : List Record} (h : r.Walk recs r') :
    r.collect = recs ++ r'.collect ∧ r'.header = r.header ∧ r'.buf = r.buf ∧ r.off ≤ r'.off ∧
      (r.off ≤ r.buf.length → r'.off ≤ r'.buf.length) ∧
      ∀ more, Pcap.Reader.collect { r with buf := r.buf ++ more }
        = recs ++ Pcap.Reader.collect { r' with buf := r'.buf ++ more } := by
  induction h with
  | here r => exact ⟨rfl, rfl, rfl, Nat.le_refl _, id, fun more => rfl⟩
  | @next r r' r'' rec recs hnext hs ih =>
    obtain ⟨hcollect, hheader, hbuf, hoff, hin, hgrown⟩ := ih
    obtain ⟨hbuf', hlt, hle⟩ := Pcap.Reader.next_advances hnext
    -- a record moves the reader and keeps its header
    have hheader' : r'.header = r.header := by
      unfold Pcap.Reader.next at hnext
      dsimp only at hnext
      split at hnext
      · cases hnext
      · split at hnext
        · cases hnext
        · have hpair := Option.some.inj hnext
          rw [Prod.mk.injEq] at hpair
          rw [← hpair.2]
    refine ⟨?_, hheader.trans hheader', hbuf.trans hbuf', by omega, fun _ => ?_, fun more => ?_⟩
    · rw [Pcap.Reader.collect_of_some hnext, hcollect, List.cons_append]
    · exact hin (by rw [hbuf']; exact hle)
    · rw [Pcap.Reader.collect_of_some (pcap_next_append more hnext), hgrown, List.cons_append]

/-- Every walk comes to an end. -/
theorem pcap_walk_stops (r : Pcap.Reader) : ∃ recs r', r.Walk recs r' ∧ r'.next = none := by
  induction hn : r.buf.length - r.off using Nat.strong_induction_on generalizing r with
  | _ n ih =>
    cases hnext : r.next with
    | none => exact ⟨[], r, .here r, hnext⟩
    | some p =>
      obtain ⟨rec, r'⟩ := p
      obtain ⟨hbuf, hlt, hle⟩ := Pcap.Reader.next_advances hnext
      obtain ⟨recs, r'', hwalk, hnone⟩ := ih (r'.buf.length - r'.off) (by rw [hbuf]; omega) r' rfl
      exact ⟨rec :: recs, r'', .next hnext hwalk, hnone⟩

end Pcap

/-! ## What is accepted -/

theorem is_pcapng_append {held : Bytes} (more : Bytes) (h : 4 ≤ held.length) :
    is_pcapng (held ++ more) = is_pcapng held := by
  unfold is_pcapng
  rw [rd32_append_eq more (by omega)]

/-- The head says whether the target is pcapng, and what its header is. -/
theorem head_of_target (t : Target) (held : Bytes) :
    is_pcapng (t.head held) = is_pcapng held ∧
      ∀ h, Pcap.parse_header (t.head held) = .ok h → Pcap.parse_header held = .ok h := by
  cases t with
  | buffer => exact ⟨rfl, fun h hh => hh⟩
  | path =>
    have hsplit : held.take HEAD_PROBE ++ held.drop HEAD_PROBE = held :=
      List.take_append_drop HEAD_PROBE held
    refine ⟨?_, fun h hh => ?_⟩
    · show is_pcapng (held.take HEAD_PROBE) = _
      by_cases hshort : held.length ≤ HEAD_PROBE
      · rw [List.take_of_length_le hshort]
      · have hprobe : HEAD_PROBE = 65536 := rfl
        have hlen : 4 ≤ (held.take HEAD_PROBE).length := by
          rw [List.length_take]
          omega
        rw [← is_pcapng_append (held.drop HEAD_PROBE) hlen, hsplit]
    · have hgrown := (parse_header_append (held.drop HEAD_PROBE) hh).1
      unfold Target.head at hgrown
      dsimp only at hgrown
      rwa [hsplit] at hgrown

/-- What the writer has seen to when it takes a target that opens. -/
structure Accepted (pcapng : Bool) (linktype snaplen : UInt32) (nanos : Bool) (held head : Bytes) :
    Prop where
  kind : is_pcapng held = pcapng
  sections : pcapng = true → head = write_shb ++ write_idb linktype snaplen nanos ∧
    linktype.toNat < 2 ^ 16 ∧ held.length % 4 = 0
  records : pcapng = false → head = [] ∧
    ∃ h, Pcap.parse_header held = .ok h ∧ h.nanos = nanos ∧ h.swapped = false

/-- A writer that opens an existing capture for appending leaves it as it is, and its header agrees
with what was asked for. -/
theorem accepted_of_new {t : Target} {pcapng nanos : Bool} {linktype snaplen : UInt32}
    {held head : Bytes} (hopens : (read_pcap held).isSome)
    (h : CaptureWriter.new t pcapng linktype snaplen nanos held = .ok head) :
    Accepted pcapng linktype snaplen nanos held head := by
  have hheld : held ≠ [] := by
    rintro rfl
    exact absurd hopens (by decide)
  have hhead : t.head held ≠ [] := by
    cases t with
    | buffer => exact hheld
    | path =>
      cases held with
      | nil => exact absurd rfl hheld
      | cons b held => exact List.cons_ne_nil _ _
  obtain ⟨hkind, hparse⟩ := head_of_target t held
  unfold CaptureWriter.new at h
  split at h
  · cases h
  · rename_i hwide
    dsimp only at h
    split at h
    · cases h
    · rename_i hcheck
      unfold check_appendable at hcheck
      cases pcapng with
      | true =>
        -- a pcapng file is checked for its magic and its tail
        rw [if_pos rfl] at hcheck
        split at hcheck
        · cases hcheck
        · rename_i hpcapng
          have hyes : is_pcapng (t.head held) = true := by
            simpa using hpcapng
          split at h
          · cases h
          · rename_i hwhole
            have htail : tail_block_whole held = true := by
              simpa using hwhole
            refine ⟨hkind ▸ hyes, fun _ => ⟨(Except.ok.inj h).symm, ?_, ?_⟩, fun hf => by cases hf⟩
            · by_contra hbig
              exact hwide ⟨rfl, by omega⟩
            · unfold tail_block_whole at htail
              by_contra hodd
              rw [if_pos (Or.inr hodd)] at htail
              cases htail
      | false =>
        -- a pcap file for its header only, and nothing looks at its end
        rw [if_neg Bool.false_ne_true] at hcheck
        split at hcheck
        · cases hcheck
        · rename_i hpcap
          have hno : is_pcapng (t.head held) = false := by
            simpa using hpcap
          split at hcheck
          · cases hcheck
          · rename_i header hheader
            split at hcheck
            · cases hcheck
            · split at hcheck
              · cases hcheck
              · rename_i hnanos
                split at hcheck
                · cases hcheck
                · rename_i hswapped
                  refine ⟨hkind ▸ hno, fun hf => (by cases hf), fun _ => ⟨?_, header, ?_, ?_, ?_⟩⟩
                  · exact (Except.ok.inj h).symm
                  · exact hparse header hheader
                  · exact not_not.1 hnanos
                  · simpa using hswapped

/-! ## Records written -/

section Written

variable {nanos : Bool}

/-- A record with the wire length it is written with. -/
def Captured.measured (w : Captured nanos) : Captured nanos where
  toWritten := { w.toWritten with
    origlen := if w.origlen = 0 then UInt32.ofNat w.data.length else w.origlen }
  frac_lt := w.frac_lt
  data_le := w.data_le

/-- What is written behind a pcapng file is one section. -/
theorem appended_section (linktype snaplen : UInt32) (hlink : linktype.toNat < 2 ^ 16)
    (recs : List (Captured nanos)) :
    write_shb ++ write_idb linktype snaplen nanos ++ recs.flatMap (fun w => encode true nanos w.toWritten)
      = (written_section linktype.toUInt16 snaplen (recs.map Captured.measured)).encode := by
  have hsame : linktype.toUInt16.toUInt32 = linktype := by
    apply UInt32.toNat_inj.1
    rw [UInt16.toNat_toUInt32, UInt32.toNat_toUInt16, Nat.mod_eq_of_lt hlink]
  rw [← write_file_eq, Pcapng.write_file, hsame, List.map_map, List.flatMap_map]
  rfl

/-- The data and the times of records read back. -/
theorem records_measured (scale : Bool) (recs : List (Captured nanos)) :
    ((recs.map Captured.measured).map fun w => w.toWritten.record).map
        (fun r => (r.data, time_at scale r.ts_sec r.ts_frac))
      = recs.map fun w => (w.data, time_at scale w.ts_sec w.ts_frac) := by
  rw [List.map_map, List.map_map]
  rfl

end Written

end Wiry.Capture
