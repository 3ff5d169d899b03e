/-
`crates/wiry-core/src/pcap.rs`: a 24-octet file header, then records behind
16-octet headers, read in either byte order and written in one.

A file in the other byte order is what `write_header_in` and `write_record_in`
produce for `true`; for `false` they are the source's own writers.
-/
import Wiry.Capture.Words

set_option autoImplicit false

namespace Wiry.Capture

open Packet

structure Record where
  ts_sec : UInt32
  /-- Microseconds, or nanoseconds when the file uses the nanosecond magic. -/
  ts_frac : UInt32
  caplen : UInt32
  origlen : UInt32
  data : Bytes
deriving DecidableEq, Repr

namespace Pcap

def MAGIC_LE_USEC : UInt32 := 0xa1b2c3d4

def MAGIC_LE_NSEC : UInt32 := 0xa1b23c4d

structure FileHeader where
  swapped : Bool
  nanos : Bool
  snaplen : UInt32
  linktype : UInt32
deriving DecidableEq, Repr

inductive PcapError where
  | TooShort
  | BadMagic (m : UInt32)
deriving DecidableEq, Repr

/-- The four octets at `o`, which the caller knows to be there. -/
def rd_at (buf : Bytes) (o : ℕ) (swapped : Bool) : UInt32 :=
  let v := from_le32 (slice buf o (o + 4))
  if swapped then swap32 v else v

/-- Which of the four magics a file starts with: byte order and resolution. -/
def magic_of (raw : UInt32) : Option (Bool × Bool) :=
  if raw = MAGIC_LE_USEC then some (false, false)
  else if raw = MAGIC_LE_NSEC then some (false, true)
  else if swap32 raw = MAGIC_LE_USEC then some (true, false)
  else if swap32 raw = MAGIC_LE_NSEC then some (true, true)
  else none

/-- `parse_header`. -/
def parse_header (buf : Bytes) : Except PcapError FileHeader :=
  if buf.length < 24 then .error .TooShort
  else
    let raw := rd_at buf 0 false
    match magic_of raw with
    | none => .error (.BadMagic raw)
    | some (swapped, nanos) =>
      .ok { swapped, nanos, snaplen := rd_at buf 16 swapped, linktype := rd_at buf 20 swapped }

structure Reader where
  buf : Bytes
  off : ℕ
  header : FileHeader

/-- `Reader::new`. -/
def Reader.new (buf : Bytes) : Except PcapError Reader :=
  match parse_header buf with
  | .error e => .error e
  | .ok header => .ok { buf, off := 24, header }

/-- `Reader::next`: iteration ends at the first record that runs past the buffer. -/
def Reader.next (r : Reader) : Option (Record × Reader) :=
  let rd := fun o => rd_at r.buf o r.header.swapped
  if r.off + 16 > r.buf.length then none
  else
    let caplen := rd (r.off + 8)
    let start := r.off + 16
    let n := caplen.toNat
    if start + n > r.buf.length then none
    else
      some ({ ts_sec := rd r.off, ts_frac := rd (r.off + 4), caplen, origlen := rd (r.off + 12),
              data := slice r.buf start (start + n) }, { r with off := start + n })

theorem Reader.next_advances {r r' : Reader} {rec : Record} (h : r.next = some (rec, r')) :
    r'.buf = r.buf ∧ r.off < r'.off ∧ r'.off ≤ r.buf.length := by
  unfold next at h
  dsimp only at h
  split at h
  · exact absurd h (Option.some_ne_none _).symm
  · split at h
    · exact absurd h (Option.some_ne_none _).symm
    · rw [Option.some.injEq, Prod.mk.injEq] at h
      rw [← h.2]
      exact ⟨rfl, by dsimp only; omega, by dsimp only; omega⟩

/-- What iterating a reader to its end yields. -/
def Reader.collect (r : Reader) : List Record :=
  match _h : r.next with
  | none => []
  | some (rec, r') => rec :: r'.collect
termination_by r.buf.length - r.off
decreasing_by
  obtain ⟨hbuf, hlt, hle⟩ := next_advances ‹_›
  rw [hbuf]
  omega

theorem Reader.collect_of_none {r : Reader} (h : r.next = none) : r.collect = [] := by
  rw [collect]
  split
  · rfl
  · rename_i h'
    rw [h] at h'
    exact absurd h' (Option.some_ne_none _).symm

theorem Reader.collect_of_some {r r' : Reader} {rec : Record} (h : r.next = some (rec, r')) :
    r.collect = rec :: r'.collect := by
  rw [collect]
  split
  · rename_i h'
    rw [h] at h'
    exact absurd h' (Option.some_ne_none _)
  · rename_i rec₁ r₁ h'
    rw [h, Option.some.injEq, Prod.mk.injEq] at h'
    rw [h'.1, h'.2]

/-! ## Writing -/

/-- `write_header`: the octets appended. -/
def write_header (linktype snaplen : UInt32) (nanos : Bool) : Bytes :=
  le32 (if nanos then MAGIC_LE_NSEC else MAGIC_LE_USEC) ++ le16 2 ++ le16 4 ++ le32 0 ++ le32 0 ++
    le32 snaplen ++ le32 linktype

/-- `write_record`: an `origlen` below the captured length is raised to it. -/
def write_record (ts_sec ts_frac : UInt32) (data : Bytes) (origlen : UInt32) : Bytes :=
  let data := data.take (min data.length (2 ^ 32 - 1))
  let caplen := UInt32.ofNat data.length
  le32 ts_sec ++ le32 ts_frac ++ le32 caplen ++ le32 (max origlen caplen) ++ data

/-- The file header with its words in either byte order. -/
def write_header_in (swapped : Bool) (linktype snaplen : UInt32) (nanos : Bool) : Bytes :=
  word32 swapped (if nanos then MAGIC_LE_NSEC else MAGIC_LE_USEC) ++ word16 swapped 2 ++
    word16 swapped 4 ++ word32 swapped 0 ++ word32 swapped 0 ++ word32 swapped snaplen ++
      word32 swapped linktype

/-- A record with the words of its header in either byte order. -/
def write_record_in (swapped : Bool) (ts_sec ts_frac : UInt32) (data : Bytes) (origlen : UInt32) :
    Bytes :=
  let data := data.take (min data.length (2 ^ 32 - 1))
  let caplen := UInt32.ofNat data.length
  word32 swapped ts_sec ++ word32 swapped ts_frac ++ word32 swapped caplen ++
    word32 swapped (max origlen caplen) ++ data

/-! ## Reading back -/

/-- A word read without a bounds check is the one read with it. -/
theorem rd_at_eq {buf : Bytes} {o : ℕ} {swapped : Bool} {v : UInt32}
    (h : rd32 buf o swapped = some v) : rd_at buf o swapped = v := by
  unfold rd32 slice_checked at h
  by_cases hin : o ≤ o + 4 ∧ o + 4 ≤ buf.length
  · rw [if_pos hin] at h
    exact Option.some.inj h
  · rw [if_neg hin] at h
    exact absurd h (Option.some_ne_none v).symm

theorem rd_at_word {buf : Bytes} (pre rest : Bytes) {swapped : Bool} {v : UInt32} {o : ℕ}
    (hbuf : buf = pre ++ word32 swapped v ++ rest) (ho : o = pre.length) :
    rd_at buf o swapped = v :=
  rd_at_eq (rd32_word pre rest hbuf ho)

theorem length_write_header_in (swapped : Bool) (linktype snaplen : UInt32) (nanos : Bool) :
    (write_header_in swapped linktype snaplen nanos).length = 24 := by
  simp only [write_header_in, List.length_append, length_word32, length_word16]

/-- The magic of a file in either byte order says which. -/
theorem magic_of_written (swapped nanos : Bool) :
    magic_of (if swapped then swap32 (if nanos then MAGIC_LE_NSEC else MAGIC_LE_USEC)
      else if nanos then MAGIC_LE_NSEC else MAGIC_LE_USEC) = some (swapped, nanos) := by
  cases swapped <;> cases nanos <;> decide

/-- A header written in either byte order is read back whole. -/
theorem parse_header_written (swapped : Bool) (linktype snaplen : UInt32) (nanos : Bool)
    (rest : Bytes) :
    parse_header (write_header_in swapped linktype snaplen nanos ++ rest) =
      .ok { swapped, nanos, snaplen, linktype } := by
  obtain ⟨buf, hfile⟩ : ∃ buf, buf = write_header_in swapped linktype snaplen nanos ++ rest := ⟨_, rfl⟩
  obtain ⟨magic, hmagic⟩ : ∃ m : UInt32, m = if nanos then MAGIC_LE_NSEC else MAGIC_LE_USEC := ⟨_, rfl⟩
  have hlen : ¬buf.length < 24 := by
    rw [hfile, List.length_append, length_write_header_in]
    omega
  have hbuf := hfile
  unfold write_header_in at hbuf
  rw [← hmagic] at hbuf
  have hraw : rd_at buf 0 swapped = magic := by
    refine rd_at_word [] (word16 swapped 2 ++ word16 swapped 4 ++ word32 swapped 0 ++
      word32 swapped 0 ++ word32 swapped snaplen ++ word32 swapped linktype ++ rest) ?_ rfl
    rw [hbuf]
    simp only [List.append_assoc, List.nil_append]
  have hsnap : rd_at buf 16 swapped = snaplen := by
    refine rd_at_word (word32 swapped magic ++ word16 swapped 2 ++ word16 swapped 4 ++
      word32 swapped 0 ++ word32 swapped 0) (word32 swapped linktype ++ rest) ?_ ?_
    · rw [hbuf]
      simp only [List.append_assoc]
    · simp only [List.length_append, length_word32, length_word16]
  have hlink : rd_at buf 20 swapped = linktype := by
    refine rd_at_word (word32 swapped magic ++ word16 swapped 2 ++ word16 swapped 4 ++
      word32 swapped 0 ++ word32 swapped 0 ++ word32 swapped snaplen) rest ?_ ?_
    · rw [hbuf]
    · simp only [List.length_append, length_word32, length_word16]
  -- in a swapped file the plain read sees the magic's octets the other way round
  have hplain : rd_at buf 0 false = if swapped then swap32 magic else magic := by
    unfold rd_at at hraw ⊢
    dsimp only at hraw ⊢
    cases swapped with
    | false => exact hraw
    | true =>
      rw [if_pos rfl] at hraw ⊢
      rw [if_neg Bool.false_ne_true, ← hraw, swap32_swap32]
  have hwhich := magic_of_written swapped nanos
  rw [← hmagic] at hwhich
  rw [← hfile]
  unfold parse_header
  rw [if_neg hlen]
  dsimp only
  rw [hplain, hwhich]
  dsimp only
  rw [hsnap, hlink]

/-- The data a writer keeps. -/
theorem take_whole {data : Bytes} {n : ℕ} (h : data.length ≤ n) :
    data.take (min data.length n) = data := by
  rw [Nat.min_eq_left h, List.take_length]

/-- **A record written is the next one read**, wherever in the file it lies. -/
theorem next_written {r : Reader} {pre rest : Bytes} {ts_sec ts_frac origlen : UInt32} {data : Bytes}
    (hdata : data.length < 2 ^ 32)
    (hbuf : r.buf = pre ++ write_record_in r.header.swapped ts_sec ts_frac data origlen ++ rest)
    (hoff : r.off = pre.length) :
    r.next = some (⟨ts_sec, ts_frac, UInt32.ofNat data.length,
        max origlen (UInt32.ofNat data.length), data⟩,
      { r with off := (pre ++
        write_record_in r.header.swapped ts_sec ts_frac data origlen).length }) := by
  -- The four words of the record header, each where it was written, then the data behind them.
  have hcaplen : (UInt32.ofNat data.length).toNat = data.length := by
    rw [UInt32.toNat_ofNat', Nat.mod_eq_of_lt hdata]
  unfold write_record_in at hbuf ⊢
  dsimp only at hbuf ⊢
  rw [take_whole (by omega)] at hbuf ⊢
  generalize hswapped : r.header.swapped = swapped at hbuf ⊢
  generalize hcap : UInt32.ofNat data.length = caplen at hcaplen hbuf ⊢
  generalize max origlen caplen = origlen at hbuf ⊢
  have hsec : rd_at r.buf r.off swapped = ts_sec := by
    refine rd_at_word pre (word32 swapped ts_frac ++ word32 swapped caplen ++
      word32 swapped origlen ++ data ++ rest) ?_ hoff
    rw [hbuf]
    simp only [List.append_assoc]
  have hfrac : rd_at r.buf (r.off + 4) swapped = ts_frac := by
    refine rd_at_word (pre ++ word32 swapped ts_sec) (word32 swapped caplen ++
      word32 swapped origlen ++ data ++ rest) ?_ (by simp [hoff])
    rw [hbuf]
    simp only [List.append_assoc]
  have hread : rd_at r.buf (r.off + 8) swapped = caplen := by
    refine rd_at_word (pre ++ word32 swapped ts_sec ++ word32 swapped ts_frac)
      (word32 swapped origlen ++ data ++ rest) ?_ (by simp [hoff])
    rw [hbuf]
    simp only [List.append_assoc]
  have horig : rd_at r.buf (r.off + 12) swapped = origlen := by
    refine rd_at_word (pre ++ word32 swapped ts_sec ++ word32 swapped ts_frac ++
      word32 swapped caplen) (data ++ rest) ?_ (by simp [hoff])
    rw [hbuf]
    simp only [List.append_assoc]
  have hlen : r.buf.length = r.off + 16 + data.length + rest.length := by
    rw [hbuf]
    simp only [List.length_append, length_word32, hoff]
    omega
  have hslice : slice r.buf (r.off + 16) (r.off + 16 + data.length) = data := by
    have hmiddle := slice_checked_middle (pre ++ word32 swapped ts_sec ++ word32 swapped ts_frac ++
      word32 swapped caplen ++ word32 swapped origlen) data rest
      (show r.off + 16 = _ by simp [hoff]) (show r.off + 16 + data.length = _ by simp [hoff])
    rw [show _ ++ data ++ rest = r.buf by rw [hbuf]; simp only [List.append_assoc],
      slice_checked_eq (by omega) (by omega)] at hmiddle
    exact Option.some.inj hmiddle
  have hcount : (rd_at r.buf (r.off + 8) swapped).toNat = data.length := by rw [hread, hcaplen]
  -- Read back in this order they pass every guard of the reader.
  unfold Reader.next
  rw [hswapped]
  dsimp only
  rw [if_neg (by omega), if_neg (by omega), hcount, hread, hsec, hfrac, horig, hslice]
  simp only [Option.some.injEq, Prod.mk.injEq, true_and]
  congr 1
  simp only [List.length_append, length_word32, hoff]
  omega

/-! ## Whole files -/

/-- A record as the caller hands it to a writer. -/
structure Written where
  ts_sec : UInt32
  ts_frac : UInt32
  data : Bytes
  origlen : UInt32

/-- The record a reader should give back for it. -/
def Written.record (w : Written) : Record where
  ts_sec := w.ts_sec
  ts_frac := w.ts_frac
  caplen := UInt32.ofNat w.data.length
  origlen := max w.origlen (UInt32.ofNat w.data.length)
  data := w.data

/-- A file of these records, its header words in either byte order. -/
def write_file (swapped : Bool) (linktype snaplen : UInt32) (nanos : Bool) (recs : List Written) :
    Bytes :=
  write_header_in swapped linktype snaplen nanos ++
    recs.flatMap fun w => write_record_in swapped w.ts_sec w.ts_frac w.data w.origlen

/-- Reading from a record on yields it and every one after it. -/
theorem collect_written {r : Reader} {pre : Bytes} {recs : List Written}
    (hdata : ∀ w ∈ recs, w.data.length < 2 ^ 32)
    (hbuf : r.buf = pre ++ recs.flatMap fun w =>
      write_record_in r.header.swapped w.ts_sec w.ts_frac w.data w.origlen)
    (hoff : r.off = pre.length) : r.collect = recs.map Written.record := by
  induction recs generalizing r pre with
  | nil =>
    apply Reader.collect_of_none
    have hend : r.buf.length = r.off := by rw [hbuf, hoff, List.flatMap_nil, List.append_nil]
    unfold Reader.next
    exact if_pos (by omega)
  | cons w recs ih =>
    rw [List.flatMap_cons, ← List.append_assoc] at hbuf
    have hnext := next_written (hdata w List.mem_cons_self) hbuf hoff
    have hrest : Reader.collect { r with off := (pre ++ write_record_in r.header.swapped w.ts_sec
        w.ts_frac w.data w.origlen).length } = recs.map Written.record := by
      apply ih (fun w hw => hdata w (List.mem_cons_of_mem _ hw))
      · exact hbuf
      · rfl
    rw [Reader.collect_of_some hnext, List.map_cons, hrest]
    rfl

/-- **A pcap file reads back what was written to it**, in either byte order. -/
theorem read_written (swapped : Bool) (linktype snaplen : UInt32) (nanos : Bool)
    {recs : List Written} (hdata : ∀ w ∈ recs, w.data.length < 2 ^ 32) :
    ∃ r, Reader.new (write_file swapped linktype snaplen nanos recs) = .ok r ∧
      r.header = { swapped, nanos, snaplen, linktype } ∧ r.collect = recs.map Written.record := by
  refine ⟨⟨write_file swapped linktype snaplen nanos recs, 24, { swapped, nanos, snaplen, linktype }⟩,
    ?_, rfl, ?_⟩
  · rw [Reader.new, write_file, parse_header_written]
  · exact collect_written hdata rfl (length_write_header_in _ _ _ _).symm

end Pcap

end Wiry.Capture
