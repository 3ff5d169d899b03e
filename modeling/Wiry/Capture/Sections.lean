/-
pcapng files by their sections: what a run of well-formed blocks reads as, and
what the reader makes of one section behind another.

`read_blocks` says what the records of a section are, from the blocks alone and
with none of the reader's bookkeeping; `collect_section` connects the two.
-/
import Wiry.Capture.Pcapng

set_option autoImplicit false

namespace Wiry.Capture.Pcapng

open Packet

/-! ## Blocks -/

/-- A block by its type and body. -/
structure Block where
  btype : UInt32
  body : Bytes
  /-- The body fills whole words and the length of the whole fits its own field. -/
  aligned : body.length % 4 = 0
  small : 12 + body.length < 2 ^ 32

/-- `block type | total length | body | total length` in either byte order. -/
def Block.encode (swapped : Bool) (b : Block) : Bytes :=
  let total := UInt32.ofNat (12 + b.body.length)
  word32 swapped b.btype ++ word32 swapped total ++ b.body ++ word32 swapped total

@[simp] theorem Block.length_encode (swapped : Bool) (b : Block) :
    (b.encode swapped).length = 12 + b.body.length := by
  simp only [encode, List.length_append, length_word32]
  omega

theorem pad4_of_aligned {n : ℕ} (h : n % 4 = 0) : pad4 n = n := by
  unfold pad4
  omega

theorem le_pad4 (n : ℕ) : n ≤ pad4 n := by
  unfold pad4
  omega

theorem Block.toNat_total (b : Block) :
    (UInt32.ofNat (12 + b.body.length)).toNat = 12 + b.body.length := by
  rw [UInt32.toNat_ofNat', Nat.mod_eq_of_lt b.small]

/-- The type of a block, wherever it lies. -/
theorem rd32_encode {buf pre rest : Bytes} {swapped : Bool} {b : Block}
    (hbuf : buf = pre ++ b.encode swapped ++ rest) :
    rd32 buf pre.length swapped = some b.btype := by
  refine rd32_word pre (word32 swapped (UInt32.ofNat (12 + b.body.length)) ++ b.body ++
    word32 swapped (UInt32.ofNat (12 + b.body.length)) ++ rest) ?_ rfl
  rw [hbuf, Block.encode]
  simp only [List.append_assoc]

/-- A well-formed block is read as it was laid out. -/
theorem read_block_at_encode {buf pre rest : Bytes} {swapped : Bool} {b : Block} {end_ : ℕ}
    (hbuf : buf = pre ++ b.encode swapped ++ rest)
    (hend : pre.length + (b.encode swapped).length ≤ end_) :
    read_block_at buf swapped end_ pre.length = some (b.btype, (b.encode swapped).length) := by
  rw [Block.length_encode] at hend ⊢
  obtain ⟨total, htotal⟩ : ∃ t, t = UInt32.ofNat (12 + b.body.length) := ⟨_, rfl⟩
  have hnat : total.toNat = 12 + b.body.length := htotal ▸ b.toNat_total
  -- The length stands behind the type, and again at the block's end.
  have hlen : rd32 buf (pre.length + 4) swapped = some total := by
    refine rd32_word (pre ++ word32 swapped b.btype) (b.body ++ word32 swapped total ++ rest) ?_
      (by rw [List.length_append, length_word32])
    rw [hbuf, Block.encode, htotal]
    simp only [List.append_assoc]
  -- its copy, where the reader looks for it
  have hagain : rd32 buf (pre.length + (12 + b.body.length) - 4) swapped = some total := by
    refine rd32_word (pre ++ word32 swapped b.btype ++ word32 swapped total ++ b.body) rest ?_ ?_
    · rw [hbuf, Block.encode, htotal]
      simp only [List.append_assoc]
    · simp only [List.length_append, length_word32]
      omega
  have haligned := b.aligned
  unfold read_block_at
  rw [if_neg (by omega), rd32_encode hbuf, hlen]
  dsimp only
  rw [hnat, pad4_of_aligned (by omega), if_neg (by omega), hagain]
  dsimp only
  rw [if_pos rfl]

/-! ### Reading is local to the block -/

section Within

variable (pre mid rest : Bytes) (swapped : Bool)

/-- The options of an interface block are read from that block alone. -/
theorem idb_options_within {body_end : ℕ} (hend : body_end ≤ mid.length) (n o tsresol : ℕ) :
    idb_options (pre ++ mid ++ rest) swapped (pre.length + body_end) n (pre.length + o) tsresol =
      idb_options mid swapped body_end n o tsresol := by
  -- By the options left; the two walks stay a constant offset apart.
  induction n generalizing o tsresol with
  | zero => rfl
  | succ n ih =>
    rw [idb_options, idb_options]
    -- An option inside the block is read off the same octets in both.
    by_cases hroom : o + 4 ≤ body_end
    · have hcode := rd16_within pre rest (show o + 2 ≤ mid.length by omega) swapped
      have hlen := rd16_within pre rest (show o + 2 + 2 ≤ mid.length by omega) swapped
      rw [if_pos (by omega), if_pos hroom, hcode, Nat.add_assoc, hlen]
      split
      · rename_i code len _ _
        split
        · rfl
        · by_cases hfit : o + 4 + len.toNat > body_end
          · rw [if_pos (by omega), if_pos hfit]
          · rw [if_neg (by omega), if_neg hfit]
            have hoctet : ∀ h : 1 ≤ len.toNat,
                (pre ++ mid ++ rest)[pre.length + o + 4]? = mid[o + 4]? := by
              intro h
              rw [List.append_assoc, List.getElem?_append_right (by omega),
                List.getElem?_append_left (by omega)]
              congr 1
              omega
            have hpos : pre.length + o + 4 + pad4 len.toNat =
                pre.length + (o + 4 + pad4 len.toNat) := by omega
            dsimp only
            rw [hpos]
            by_cases hres : code = OPT_IF_TSRESOL ∧ 1 ≤ len.toNat
            · rw [if_pos hres, if_pos hres, hoctet hres.2]
              exact ih _ _
            · rw [if_neg hres, if_neg hres]
              exact ih _ _
      · rfl
    · rw [if_neg (by omega), if_neg hroom]

theorem parse_idb_within (hlen : 12 ≤ mid.length) :
    parse_idb (pre ++ mid ++ rest) swapped pre.length mid.length =
      parse_idb mid swapped 0 mid.length := by
  unfold parse_idb
  rw [rd16_within pre rest (show 8 + 2 ≤ mid.length by omega),
    show pre.length + mid.length - 4 = pre.length + (mid.length - 4) from by omega,
    idb_options_within pre mid rest swapped (show mid.length - 4 ≤ mid.length by omega)]
  simp only [Nat.zero_add]

/-- So is a packet block. -/
theorem packet_at_within (ifaces : List Iface) (header : FileHeader) (btype : UInt32) :
    packet_at (pre ++ mid ++ rest) swapped ifaces header btype pre.length mid.length =
      packet_at mid swapped ifaces header btype 0 mid.length := by
  unfold packet_at
  by_cases hshort : mid.length < 32
  · rw [if_pos hshort, if_pos hshort]
  · rw [if_neg hshort, if_neg hshort, rd16_within pre rest (show 8 + 2 ≤ mid.length by omega),
      rd32_within pre rest (show 8 + 4 ≤ mid.length by omega), rd32_within pre rest (show 12 + 4 ≤ mid.length by omega),
      rd32_within pre rest (show 16 + 4 ≤ mid.length by omega), rd32_within pre rest (show 20 + 4 ≤ mid.length by omega),
      rd32_within pre rest (show 24 + 4 ≤ mid.length by omega)]
    simp only [Nat.zero_add]
    split
    · rfl
    · split
      · rfl
      · split
        · rename_i hi lo caplen origlen _ _ _ _
          by_cases hfit : pad4 caplen.toNat > mid.length - 32
          · rw [if_pos hfit, if_pos hfit]
          · have hpad := le_pad4 caplen.toNat
            rw [if_neg hfit, if_neg hfit, Nat.add_assoc pre.length,
              slice_checked_within pre rest (show 28 ≤ 28 + caplen.toNat by omega) (by omega)]
        · rfl

/-- So is a simple packet block. -/
theorem simple_at_within :
    simple_at (pre ++ mid ++ rest) swapped pre.length mid.length =
      simple_at mid swapped 0 mid.length := by
  unfold simple_at
  by_cases hshort : mid.length < 16
  · rw [if_pos hshort, if_pos hshort]
  · rw [if_neg hshort, if_neg hshort, rd32_within pre rest (show 8 + 4 ≤ mid.length by omega)]
    simp only [Nat.zero_add]
    split
    · rfl
    · rename_i origlen _
      rw [Nat.add_assoc pre.length,
        slice_checked_within pre rest (show 12 ≤ 12 + min origlen.toNat (mid.length - 16) by omega) (by omega)]

/-- **What a block says is in the block.** -/
theorem block_at_within (hlen : 12 ≤ mid.length) (ifaces : List Iface) (header : FileHeader)
    (btype : UInt32) :
    block_at (pre ++ mid ++ rest) swapped ifaces header btype pre.length mid.length =
      block_at mid swapped ifaces header btype 0 mid.length := by
  unfold block_at
  rw [parse_idb_within pre mid rest swapped hlen, packet_at_within, simple_at_within]

end Within

/-- The file's own header never decides a record: an interface that is not there has no packets. -/
theorem block_at_header (buf : Bytes) (swapped : Bool) (ifaces : List Iface)
    (header header' : FileHeader) (btype : UInt32) (start total : ℕ) :
    block_at buf swapped ifaces header btype start total =
      block_at buf swapped ifaces header' btype start total := by
  have hpacket : packet_at buf swapped ifaces header btype start total =
      packet_at buf swapped ifaces header' btype start total := by
    unfold packet_at
    split
    · rfl
    · dsimp only
      split
      · rfl
      · rename_i iface_id _
        by_cases hnone : ifaces[iface_id.toNat]? = none
        · rw [if_pos hnone, if_pos hnone]
        · obtain ⟨iface, hiface⟩ := Option.ne_none_iff_exists'.1 hnone
          rw [if_neg hnone, if_neg hnone, tsresol_for, tsresol_for, hiface]
          rfl
  unfold block_at
  rw [hpacket]

/-! ### Well-formed blocks -/

/-- A block the reader can make sense of: no section header, and a packet whose data is there. -/
structure Block.WellFormed (swapped : Bool) (b : Block) : Prop where
  inner : b.btype ≠ BLOCK_SHB
  packet : b.btype = BLOCK_EPB ∨ b.btype = BLOCK_PB → 20 ≤ b.body.length ∧
    ∀ caplen, rd32 b.body 12 swapped = some caplen → pad4 caplen.toNat ≤ b.body.length - 20
  simple : b.btype = BLOCK_SPB → 4 ≤ b.body.length

/-- What a block does to the walk, read by itself. -/
def Block.read (swapped : Bool) (ifaces : List Iface) (b : Block) : Pass :=
  block_at (b.encode swapped) swapped ifaces ⟨swapped, 0, DEFAULT_TSRESOL⟩ b.btype 0
    (b.encode swapped).length

theorem rd32_some {buf : Bytes} {o : ℕ} (h : o + 4 ≤ buf.length) (swapped : Bool) :
    ∃ v, rd32 buf o swapped = some v := by
  unfold rd32
  rw [slice_checked_eq (by omega) h]
  exact ⟨_, rfl⟩

theorem rd16_some {buf : Bytes} {o : ℕ} (h : o + 2 ≤ buf.length) (swapped : Bool) :
    ∃ v, rd16 buf o swapped = some v := by
  unfold rd16
  rw [slice_checked_eq (by omega) h]
  exact ⟨_, rfl⟩

/-- A word of the body, read in the block. -/
theorem rd32_body {swapped : Bool} {b : Block} {o : ℕ} (h : o + 4 ≤ b.body.length) :
    rd32 (b.encode swapped) (8 + o) swapped = rd32 b.body o swapped := by
  have hwithin := rd32_within
    (word32 swapped b.btype ++ word32 swapped (UInt32.ofNat (12 + b.body.length)))
    (word32 swapped (UInt32.ofNat (12 + b.body.length))) h swapped
  rwa [List.length_append, length_word32, length_word32] at hwithin

/-- The walk goes on past a well-formed block. -/
theorem Block.WellFormed.not_stop {swapped : Bool} {b : Block} (h : b.WellFormed swapped)
    (ifaces : List Iface) : b.read swapped ifaces ≠ .stop := by
  have hlen := b.length_encode swapped
  -- A well-formed block has all the words its type asks for, so no branch that stops is taken.
  unfold Block.read block_at
  split
  · simp
  · split
    · rename_i hpacket
      obtain ⟨hbody, hcap⟩ := h.packet hpacket
      obtain ⟨hi, hhi⟩ := rd32_some (show 12 + 4 ≤ (b.encode swapped).length by omega) swapped
      obtain ⟨lo, hlo⟩ := rd32_some (show 16 + 4 ≤ (b.encode swapped).length by omega) swapped
      obtain ⟨caplen, hcaplen⟩ := rd32_some (show 12 + 4 ≤ b.body.length by omega) swapped
      obtain ⟨origlen, horig⟩ := rd32_some (show 24 + 4 ≤ (b.encode swapped).length by omega) swapped
      obtain ⟨id, hid⟩ : ∃ id, (if b.btype = BLOCK_PB then
          (rd16 (b.encode swapped) 8 swapped).map UInt16.toUInt32
          else rd32 (b.encode swapped) 8 swapped) = some id := by
        split
        · obtain ⟨v, hv⟩ := rd16_some (show 8 + 2 ≤ (b.encode swapped).length by omega) swapped
          exact ⟨v.toUInt32, by rw [hv]; rfl⟩
        · exact rd32_some (show 8 + 4 ≤ (b.encode swapped).length by omega) swapped
      have hfit := hcap caplen hcaplen
      have hpad := le_pad4 caplen.toNat
      have hread : rd32 (b.encode swapped) 20 swapped = some caplen :=
        (rd32_body (show 12 + 4 ≤ b.body.length by omega)).trans hcaplen
      unfold packet_at
      simp only [Nat.zero_add]
      rw [if_neg (by omega), hid]
      dsimp only
      split
      · simp
      · rw [hhi, hlo, hread, horig]
        dsimp only
        rw [if_neg (by omega), slice_checked_eq (by omega) (by omega)]
        simp
    · split
      · rename_i hsimple
        have hbody := h.simple hsimple
        obtain ⟨origlen, horig⟩ := rd32_some (show 8 + 4 ≤ (b.encode swapped).length by omega) swapped
        unfold simple_at
        simp only [Nat.zero_add]
        rw [if_neg (by omega), horig]
        dsimp only
        rw [slice_checked_eq (by omega) (by omega)]
        simp
      · simp

/-- The records of a run of blocks under the interfaces described so far. -/
def read_blocks (swapped : Bool) : List Iface → List Block → List Record
  | _, [] => []
  | ifaces, b :: rest =>
    match b.read swapped ifaces with
    | .stop => []
    | .skip ifaces => read_blocks swapped ifaces rest
    | .yield rec => rec :: read_blocks swapped ifaces rest

/-! ## Iterating -/

/-- A block that is read has its type where it starts. -/
theorem read_block_at_type {buf : Bytes} {swapped : Bool} {end_ off total : ℕ} {btype : UInt32}
    (h : read_block_at buf swapped end_ off = some (btype, total)) :
    off + 12 ≤ end_ ∧ rd32 buf off swapped = some btype := by
  unfold read_block_at at h
  split at h
  · exact absurd h (Option.some_ne_none _).symm
  · split at h
    · rename_i htype hlen
      dsimp only at h
      split at h
      · exact absurd h (Option.some_ne_none _).symm
      · split at h
        · split at h
          · rw [Option.some.injEq, Prod.mk.injEq] at h
            exact ⟨by omega, by rw [htype, h.1]⟩
          · exact absurd h (Option.some_ne_none _).symm
        · exact absurd h (Option.some_ne_none _).symm
    · exact absurd h (Option.some_ne_none _).symm

namespace Reader

/-- What an open reader collects: the next record, and what the reader behind it collects. -/
theorem collect_eq {r : Reader} (hdone : r.done = false) :
    r.collect = match r.next_record with
      | none => []
      | some (rec, r') => rec :: r'.collect := by
  have hopen : ¬r.done = true := by rw [hdone]; exact Bool.false_ne_true
  rw [collect]
  -- The last read sets `done`, so the collected list ends there.
  cases hrec : r.next_record with
  | none =>
    have hnext : r.next = (none, { r with done := true }) := by
      rw [next, if_neg hopen, hrec]
    split
    · rfl
    · rename_i h
      rw [hnext] at h
      exact absurd h (Option.some_ne_none _).symm
  | some p =>
    have hnext : r.next = (some p.1, p.2) := by
      rw [next, if_neg hopen, hrec]
    split
    · rename_i h
      rw [hnext] at h
      exact absurd h (Option.some_ne_none _)
    · rename_i rec h
      rw [hnext] at h
      dsimp only at h ⊢
      rw [Option.some.inj h, hnext]

theorem collect_of_stop {r : Reader} (hdone : r.done = false) (h : r.step = .stop) :
    r.collect = [] := by
  rw [collect_eq hdone, next_record_of_stop h]

theorem collect_of_skip {r r' : Reader} (hdone : r.done = false) (hdone' : r'.done = false)
    (h : r.step = .skip r') : r.collect = r'.collect := by
  rw [collect_eq hdone, collect_eq hdone', next_record_of_skip h]

theorem collect_of_yield {r r' : Reader} {rec : Record} (hdone : r.done = false)
    (h : r.step = .yield rec r') : r.collect = rec :: r'.collect := by
  rw [collect_eq hdone, next_record_of_yield h]

/-- Nothing is read at the end of a section. -/
theorem collect_at_end {r : Reader} (hdone : r.done = false) (h : r.end_ ≤ r.off) :
    r.collect = [] := by
  apply collect_of_stop hdone
  unfold step
  exact if_pos (by omega)

/-! ### The file's header -/

/-- A reader told another file header. -/
def with_header (r : Reader) (header : FileHeader) : Reader := { r with header }

def step_with (st : Step) (header : FileHeader) : Step :=
  match st with
  | .stop => .stop
  | .skip r => .skip (r.with_header header)
  | .yield rec r => .yield rec (r.with_header header)

@[simp] theorem with_header_buf (r : Reader) (header : FileHeader) :
    (r.with_header header).buf = r.buf := rfl

@[simp] theorem with_header_off (r : Reader) (header : FileHeader) :
    (r.with_header header).off = r.off := rfl

@[simp] theorem with_header_end (r : Reader) (header : FileHeader) :
    (r.with_header header).end_ = r.end_ := rfl

@[simp] theorem with_header_swapped (r : Reader) (header : FileHeader) :
    (r.with_header header).swapped = r.swapped := rfl

@[simp] theorem with_header_ifaces (r : Reader) (header : FileHeader) :
    (r.with_header header).ifaces = r.ifaces := rfl

/-- Entering a section leaves the file header alone. -/
theorem enter_section_with_header (r : Reader) (header : FileHeader) (off : ℕ) :
    (r.with_header header).enter_section off =
      (r.enter_section off).map fun r' => r'.with_header header := by
  unfold enter_section with_header
  dsimp only
  split
  · rfl
  · split
    · rfl
    · split
      · rfl
      · split
        · rfl
        · rfl

/-- The file header changes no step: it is only carried along. -/
theorem step_with_header (r : Reader) (header : FileHeader) :
    (r.with_header header).step = step_with r.step header := by
  have henter := r.enter_section_with_header header r.off
  unfold step
  simp only [with_header_buf, with_header_off, with_header_end, with_header_swapped,
    with_header_ifaces, henter]
  -- The header is only handed on: no branch is taken by it.
  by_cases hend : r.off + 12 > r.end_
  · simp only [if_pos hend]
    rfl
  · simp only [if_neg hend]
    cases rd32 r.buf r.off r.swapped with
    | none => rfl
    | some t =>
      by_cases ht : t = BLOCK_SHB
      · simp only [if_pos ht]
        cases r.enter_section r.off with
        | none => rfl
        | some r' => rfl
      · simp only [if_neg ht]
        cases read_block_at r.buf r.swapped r.end_ r.off with
        | none => rfl
        | some p =>
          simp only [block_at_header r.buf r.swapped r.ifaces (r.with_header header).header r.header]
          cases block_at r.buf r.swapped r.ifaces r.header p.1 r.off p.2 with
          | stop => rfl
          | skip ifaces => rfl
          | yield rec => rfl

/-- A step that is not the last leaves the reader open. -/
theorem step_done {r r' : Reader} (h : r.step = .skip r' ∨ ∃ rec, r.step = .yield rec r') :
    r'.done = r.done := by
  -- Along the branches of a step: none of those that go on sets the flag.
  unfold step at h
  split at h
  · rcases h with h | ⟨rec, h⟩ <;> exact absurd h Step.noConfusion
  · split at h
    · rcases h with h | ⟨rec, h⟩ <;> exact absurd h Step.noConfusion
    · split at h
      · unfold enter_section at h
        split at h
        · rcases h with h | ⟨rec, h⟩ <;> exact absurd h Step.noConfusion
        · rename_i hsome
          rcases h with h | ⟨rec, h⟩
          · rw [← Step.skip.inj h]
            split at hsome
            · exact absurd hsome (Option.some_ne_none _).symm
            · split at hsome
              · exact absurd hsome (Option.some_ne_none _).symm
              · split at hsome
                · exact absurd hsome (Option.some_ne_none _).symm
                · split at hsome
                  · exact absurd hsome (Option.some_ne_none _).symm
                  · rw [← Option.some.inj hsome]
          · exact absurd h Step.noConfusion
      · split at h
        · rcases h with h | ⟨rec, h⟩ <;> exact absurd h Step.noConfusion
        · split at h
          · rcases h with h | ⟨rec, h⟩ <;> exact absurd h Step.noConfusion
          · rcases h with h | ⟨rec, h⟩
            · rw [← Step.skip.inj h]
            · exact absurd h Step.noConfusion
          · rcases h with h | ⟨rec, h⟩
            · exact absurd h Step.noConfusion
            · rw [← (Step.yield.inj h).2]

/-- The file's header decides no record. -/
theorem collect_with_header (r : Reader) (hdone : r.done = false) (header : FileHeader) :
    (r.with_header header).collect = r.collect := by
  induction hn : r.buf.length - r.off using Nat.strong_induction_on generalizing r with
  | _ n ih =>
    have hstep := r.step_with_header header
    have hdone_with : (r.with_header header).done = false := hdone
    cases hcase : r.step with
    | stop =>
      rw [hcase] at hstep
      rw [collect_of_stop hdone_with hstep, collect_of_stop hdone hcase]
    | skip r' =>
      rw [hcase] at hstep
      have hdone' : r'.done = false := (step_done (.inl hcase)).trans hdone
      have hskip : (r.with_header header).step = .skip (r'.with_header header) := hstep
      have hdone_skip : (r'.with_header header).done = false := hdone'
      rw [collect_of_skip hdone_with hdone_skip hskip, collect_of_skip hdone hdone' hcase]
      exact ih _ (hn ▸ (step_skip_ahead hcase).lt) r' hdone' rfl
    | yield rec r' =>
      rw [hcase] at hstep
      have hdone' : r'.done = false := (step_done (.inr ⟨rec, hcase⟩)).trans hdone
      have hyield : (r.with_header header).step = .yield rec (r'.with_header header) := hstep
      rw [collect_of_yield hdone_with hyield, collect_of_yield hdone hcase,
        ih _ (hn ▸ (step_yield_ahead hcase).lt) r' hdone' rfl]

/-- On an interface block the reader adds the interface and goes on. -/
theorem step_of_idb {r : Reader} {total : ℕ}
    (h : read_block_at r.buf r.swapped r.end_ r.off = some (BLOCK_IDB, total)) :
    r.step = .skip { r with
      off := r.off + total, ifaces := r.ifaces ++ [parse_idb r.buf r.swapped r.off total] } := by
  obtain ⟨hroom, htype⟩ := read_block_at_type h
  have hother : BLOCK_IDB ≠ BLOCK_SHB := by decide
  unfold step
  rw [if_neg (by omega), htype]
  dsimp only
  rw [if_neg hother, h]
  dsimp only
  rw [block_at, if_pos rfl]

/-- So do the leading blocks. -/
theorem lead_of_idb {r : Reader} {total : ℕ}
    (h : read_block_at r.buf r.swapped r.end_ r.off = some (BLOCK_IDB, total)) :
    r.lead = Reader.lead { r with
      off := r.off + total, ifaces := r.ifaces ++ [parse_idb r.buf r.swapped r.off total] } := by
  rw [lead]
  split
  · rename_i h'
    rw [h] at h'
    exact absurd h' (Option.some_ne_none _)
  · rename_i h'
    rw [h, Option.some.injEq, Prod.mk.injEq] at h'
    obtain ⟨htype, htotal⟩ := h'
    subst htotal
    rw [if_pos htype.symm]

/-- Nothing is read early where no interface block stands. -/
theorem lead_of_no_idb {r : Reader}
    (h : ∀ total, read_block_at r.buf r.swapped r.end_ r.off ≠ some (BLOCK_IDB, total)) : r.lead = r := by
  rw [lead]
  split
  · rfl
  · rename_i btype total hblock
    split
    · rename_i htype
      rw [htype] at hblock
      exact absurd hblock (h total)
    · rfl

/-- **The leading interface blocks**: what stays as it is over one of them stays so over them all. -/
theorem lead_induction {motive : Reader → Prop}
    (hstop : ∀ r, r.lead = r → motive r)
    (hstep : ∀ (r : Reader) (total : ℕ), read_block_at r.buf r.swapped r.end_ r.off = some (BLOCK_IDB, total) →
      motive { r with
        off := r.off + total, ifaces := r.ifaces ++ [parse_idb r.buf r.swapped r.off total] } →
      motive r)
    (r : Reader) : motive r := by
  induction r using lead.induct with
  | case1 r hnone =>
    apply hstop r (lead_of_no_idb _)
    intro total h
    rw [hnone] at h
    cases h
  | case2 r total hblock ih => exact hstep r total hblock ih
  | case3 r btype total hblock hother =>
    apply hstop r (lead_of_no_idb _)
    intro total' h
    rw [hblock, Option.some.injEq, Prod.mk.injEq] at h
    exact hother h.1

/-- What an interface block read early leaves as it is. -/
theorem lead_keeps {α : Type} {f : Reader → α}
    (hf : ∀ (r : Reader) (total : ℕ), read_block_at r.buf r.swapped r.end_ r.off = some (BLOCK_IDB, total) →
      f { r with
        off := r.off + total, ifaces := r.ifaces ++ [parse_idb r.buf r.swapped r.off total] } = f r)
    (r : Reader) : f r.lead = f r := by
  induction r using lead_induction with
  | hstop r hlead => rw [hlead]
  | hstep r total hblock ih => rw [lead_of_idb hblock, ih, hf r total hblock]

/-- Reading the leading interface blocks early changes nothing that is read after. -/
theorem lead_spec (r : Reader) (hdone : r.done = false) :
    r.lead.collect = r.collect ∧ r.lead.done = false ∧ ∃ more, r.lead.ifaces = r.ifaces ++ more := by
  induction r using lead_induction with
  | hstop r hlead =>
    rw [hlead]
    exact ⟨rfl, hdone, [], (List.append_nil _).symm⟩
  | hstep r total hblock ih =>
    obtain ⟨hcollect, hlead, more, hifaces⟩ := ih hdone
    rw [lead_of_idb hblock]
    refine ⟨hcollect.trans (Eq.symm (collect_of_skip hdone ?_ (step_of_idb hblock))), hlead,
      [parse_idb r.buf r.swapped r.off total] ++ more, ?_⟩
    · exact hdone
    · rw [hifaces]
      exact List.append_assoc _ _ _

end Reader

/-! ## Walking a section -/

/-- A reader that has not ended, at `off` of `buf` in a section up to `end_`. -/
structure Reader.At (r : Reader) (buf : Bytes) (off end_ : ℕ) : Prop where
  buf_eq : r.buf = buf
  off_eq : r.off = off
  end_eq : r.end_ = end_
  going : r.done = false

/-- **Well-formed blocks read as `read_blocks` says**, and the walk goes on behind them. -/
theorem collect_blocks {buf pre rest : Bytes} {blocks : List Block} {end_ : ℕ} {r : Reader}
    (hwf : ∀ b ∈ blocks, b.WellFormed r.swapped)
    (hbuf : buf = pre ++ blocks.flatMap (Block.encode r.swapped) ++ rest)
    (hr : r.At buf pre.length end_)
    (hend : (pre ++ blocks.flatMap (Block.encode r.swapped)).length ≤ end_) :
    ∃ r' : Reader, r.collect = read_blocks r.swapped r.ifaces blocks ++ r'.collect ∧
      r'.swapped = r.swapped ∧
      r'.At buf (pre ++ blocks.flatMap (Block.encode r.swapped)).length end_ := by
  induction blocks generalizing pre r with
  | nil =>
    refine ⟨r, rfl, rfl, ?_⟩
    rw [List.flatMap_nil, List.append_nil]
    exact hr
  | cons b blocks ih =>
    obtain ⟨hrbuf, hoff, hrend, hgoing⟩ := hr
    have hb := hwf b List.mem_cons_self
    have hlen := b.length_encode r.swapped
    rw [List.flatMap_cons] at hbuf hend ⊢
    have hhere : buf = pre ++ b.encode r.swapped ++
        (blocks.flatMap (Block.encode r.swapped) ++ rest) := by
      rw [hbuf]
      simp only [List.append_assoc]
    have hlater : buf = pre ++ b.encode r.swapped ++
        blocks.flatMap (Block.encode r.swapped) ++ rest := by
      rw [hbuf]
      simp only [List.append_assoc]
    rw [← List.append_assoc] at hend ⊢
    have hroom : pre.length + (b.encode r.swapped).length ≤ end_ := by
      rw [List.length_append, List.length_append] at hend
      omega
    -- one pass of the loop does what the block says by itself
    have hread : block_at r.buf r.swapped r.ifaces r.header b.btype r.off
        (b.encode r.swapped).length = b.read r.swapped r.ifaces := by
      rw [hrbuf, hoff, hhere, block_at_within _ _ _ _ (by omega), Block.read]
      exact block_at_header _ _ _ _ _ _ _ _
    have hstep : r.step = match b.read r.swapped r.ifaces with
        | .stop => .stop
        | .skip ifaces => .skip { r with off := r.off + (b.encode r.swapped).length, ifaces }
        | .yield rec => .yield rec { r with off := r.off + (b.encode r.swapped).length } := by
      have hblock := read_block_at_encode hhere hroom
      rw [← hrbuf, ← hoff, ← hrend] at hblock
      unfold Reader.step
      rw [if_neg (by omega), (read_block_at_type hblock).2]
      dsimp only
      rw [if_neg hb.inner, hblock]
      dsimp only
      cases hact : b.read r.swapped r.ifaces with
      | stop => simp only [hread, hact]
      | skip ifaces => simp only [hread, hact]
      | yield rec => simp only [hread, hact]
    have hnext : ∀ ifaces, Reader.At
        { r with off := r.off + (b.encode r.swapped).length, ifaces } buf
        (pre ++ b.encode r.swapped).length end_ := by
      intro ifaces
      refine ⟨hrbuf, ?_, hrend, hgoing⟩
      rw [List.length_append, ← hoff]
    cases hcase : b.read r.swapped r.ifaces with
    | stop => exact absurd hcase (hb.not_stop _)
    | skip ifaces =>
      rw [hcase] at hstep
      obtain ⟨r', hcollect, hswapped, hat⟩ := ih
        (r := { r with off := r.off + (b.encode r.swapped).length, ifaces })
        (fun b' hb' => hwf b' (List.mem_cons_of_mem b hb')) hlater (hnext ifaces) hend
      refine ⟨r', ?_, hswapped, hat⟩
      rw [Reader.collect_of_skip hgoing ?_ hstep, hcollect, read_blocks, hcase]
      exact hgoing
    | yield rec =>
      rw [hcase] at hstep
      obtain ⟨r', hcollect, hswapped, hat⟩ := ih
        (r := { r with off := r.off + (b.encode r.swapped).length })
        (fun b' hb' => hwf b' (List.mem_cons_of_mem b hb')) hlater (hnext r.ifaces) hend
      refine ⟨r', ?_, hswapped, hat⟩
      rw [Reader.collect_of_yield hgoing hstep, hcollect, read_blocks, hcase]
      rfl

/-! ## Sections -/

/-- A section of a file: its byte order, whether it declares its own length, and its blocks. -/
structure Section where
  swapped : Bool
  declares : Bool
  version : Bytes
  options : Bytes
  blocks : List Block
  length_version : version.length = 4
  aligned : options.length % 4 = 0
  small : 28 + options.length < 2 ^ 32
  well_formed : ∀ b ∈ blocks, b.WellFormed swapped
  extent_lt : declares = true → (blocks.flatMap (Block.encode swapped)).length < 2 ^ 63

namespace Section

/-- The octets of its blocks. -/
def body (s : Section) : Bytes := s.blocks.flatMap (Block.encode s.swapped)

/-- The length it declares, -1 where that is unknown. -/
def section_len (s : Section) : UInt64 :=
  if s.declares then UInt64.ofNat s.body.length else 0xffffffffffffffff

/-- Its section header block. -/
def header (s : Section) : Block where
  btype := BLOCK_SHB
  body := word32 s.swapped BYTE_ORDER_MAGIC ++ s.version ++ word64 s.swapped s.section_len ++ s.options
  aligned := by
    have hversion := s.length_version
    have hoptions := s.aligned
    simp only [List.length_append, length_word32, length_word64]
    omega
  small := by
    have hversion := s.length_version
    have hoptions := s.small
    simp only [List.length_append, length_word32, length_word64]
    omega

def encode (s : Section) : Bytes := s.header.encode s.swapped ++ s.body

/-- The records of a section, from its own blocks and interfaces. -/
def records (s : Section) : List Record := read_blocks s.swapped [] s.blocks

/-- The length of a section header. -/
theorem length_header (s : Section) : (s.header.encode s.swapped).length = 28 + s.options.length := by
  have hversion := s.length_version
  rw [Block.length_encode]
  simp only [header, List.length_append, length_word32, length_word64]
  omega

/-- The magic tells the byte order it is written in. -/
theorem order_of_magic {buf : Bytes} (pre rest : Bytes) {swapped : Bool} {o : ℕ}
    (hbuf : buf = pre ++ word32 swapped BYTE_ORDER_MAGIC ++ rest) (ho : o = pre.length) :
    (rd32 buf o false).bind order_of = some swapped := by
  have hsame := rd32_word pre rest hbuf ho
  cases swapped with
  | false =>
    rw [hsame]
    decide
  | true =>
    -- read in the other order, the magic comes out swapped
    rw [rd32_true] at hsame
    cases hread : rd32 buf o false with
    | none =>
      rw [hread] at hsame
      exact absurd hsame (Option.some_ne_none _).symm
    | some v =>
      rw [hread, Option.map_some] at hsame
      have hv : v = swap32 BYTE_ORDER_MAGIC := by rw [← Option.some.inj hsame, swap32_swap32]
      rw [hv]
      decide

/-- Entering a section: its byte order, its extent and no interfaces yet. -/
theorem enter_section_encode {buf pre rest : Bytes} {s : Section} {r : Reader}
    (hbuf : buf = pre ++ s.encode ++ rest) (hrbuf : r.buf = buf) (hgoing : r.done = false) :
    ∃ r' : Reader, r.enter_section pre.length = some r' ∧ r'.swapped = s.swapped ∧ r'.ifaces = [] ∧
      r'.At buf (pre ++ s.header.encode s.swapped).length
        (if s.declares then (pre ++ s.encode).length else buf.length) := by
  have hblock : buf = pre ++ s.header.encode s.swapped ++ (s.body ++ rest) := by
    rw [hbuf, encode]
    simp only [List.append_assoc]
  have hlen := s.length_header
  have hbuflen : buf.length = pre.length + (28 + s.options.length) + s.body.length + rest.length := by
    rw [hblock]
    simp only [List.length_append, hlen]
    omega
  -- The byte-order mark and the length of the section stand where the header puts them.
  have horder : (rd32 r.buf (pre.length + 8) false).bind order_of = some s.swapped := by
    refine order_of_magic (pre ++ word32 s.swapped BLOCK_SHB ++
      word32 s.swapped (UInt32.ofNat (12 + s.header.body.length)))
      (s.version ++ word64 s.swapped s.section_len ++ s.options ++
        word32 s.swapped (UInt32.ofNat (12 + s.header.body.length)) ++ (s.body ++ rest)) ?_ ?_
    · rw [hrbuf, hblock, Block.encode]
      simp only [header, List.append_assoc]
    · simp only [List.length_append, length_word32]
  have hread := read_block_at_encode hblock
    (show pre.length + (s.header.encode s.swapped).length ≤ buf.length by rw [hlen]; omega)
  have hlong : rd64 r.buf (pre.length + 16) s.swapped = some s.section_len := by
    have hversion := s.length_version
    refine rd64_word (pre ++ word32 s.swapped BLOCK_SHB ++
      word32 s.swapped (UInt32.ofNat (12 + s.header.body.length)) ++
        word32 s.swapped BYTE_ORDER_MAGIC ++ s.version)
      (s.options ++ word32 s.swapped (UInt32.ofNat (12 + s.header.body.length)) ++
        (s.body ++ rest)) ?_ ?_
    · rw [hrbuf, hblock, Block.encode]
      simp only [header, List.append_assoc]
    · simp only [List.length_append, length_word32, hversion]
  rw [← hrbuf] at hread
  unfold Reader.enter_section
  rw [horder]
  dsimp only
  rw [hread]
  dsimp only
  rw [if_neg (by rw [hlen, not_or, not_not]; exact ⟨rfl, by omega⟩), hlong]
  refine ⟨_, rfl, rfl, rfl, hrbuf, ?_, ?_, hgoing⟩
  · rw [List.length_append]
  · dsimp only
    unfold section_len
    -- A declared length ends the section there; an undeclared one leaves it open to the end of the
    -- file.
    by_cases hdeclares : s.declares = true
    · have hextent : s.body.length < 2 ^ 63 := s.extent_lt hdeclares
      have hnat : (UInt64.ofNat s.body.length).toNat = s.body.length := by
        rw [UInt64.toNat_ofNat', Nat.mod_eq_of_lt (by omega)]
      rw [if_pos hdeclares, if_pos hdeclares, hnat, if_neg (by omega), hrbuf, encode,
        List.length_append, List.length_append, hlen]
      omega
    · rw [if_neg hdeclares, if_neg hdeclares, if_pos (by decide), hrbuf]

theorem header_room {buf pre rest : Bytes} {s : Section} (hbuf : buf = pre ++ s.encode ++ rest) :
    pre.length + 12 ≤ buf.length := by
  have hlen := s.length_header
  rw [hbuf, encode]
  simp only [List.length_append, hlen]
  omega

/-- The walk enters a section it comes to, in whatever byte order it was reading. -/
theorem step_encode {buf pre rest : Bytes} {s : Section} {r r' : Reader} {end_ : ℕ}
    (hbuf : buf = pre ++ s.encode ++ rest) (hr : r.At buf pre.length end_)
    (hroom : pre.length + 12 ≤ end_) (henter : r.enter_section pre.length = some r') :
    r.step = .skip r' := by
  obtain ⟨hrbuf, hoff, hend, -⟩ := hr
  have htype : rd32 r.buf r.off r.swapped = some BLOCK_SHB := by
    have hpalindrome : ∀ b, word32 s.swapped BLOCK_SHB = word32 b BLOCK_SHB := by
      cases s.swapped <;> decide
    refine rd32_word pre (word32 s.swapped (UInt32.ofNat (12 + s.header.body.length)) ++
      s.header.body ++ word32 s.swapped (UInt32.ofNat (12 + s.header.body.length)) ++
        (s.body ++ rest)) ?_ hoff
    rw [← hpalindrome, hrbuf, hbuf, encode, Block.encode]
    simp only [header, List.append_assoc]
  unfold Reader.step
  rw [if_neg (by omega), htype]
  dsimp only
  rw [if_pos rfl, hoff, henter]

/-- **A section behind others yields its records**, and where it ends the walk goes on, unless the
section said so itself. -/
theorem collect_section {buf pre rest : Bytes} {s : Section} {r : Reader} {end_ : ℕ}
    (hbuf : buf = pre ++ s.encode ++ rest) (hr : r.At buf pre.length end_)
    (hroom : pre.length + 12 ≤ end_) :
    ∃ r' : Reader, r.collect = s.records ++ r'.collect ∧
      r'.At buf (pre ++ s.encode).length
        (if s.declares then (pre ++ s.encode).length else buf.length) := by
  -- Entering the section, then walking its blocks, which end where the section does.
  have hgoing := hr.going
  obtain ⟨r₁, henter, hswapped, hifaces, hat⟩ := enter_section_encode hbuf hr.buf_eq hgoing
  have hstep := step_encode hbuf hr hroom henter
  have hblocks : buf = (pre ++ s.header.encode s.swapped) ++
      s.blocks.flatMap (Block.encode r₁.swapped) ++ rest := by
    rw [hbuf, encode, body, hswapped]
    simp only [List.append_assoc]
  have hwhole : (pre ++ s.header.encode s.swapped) ++ s.blocks.flatMap (Block.encode r₁.swapped) =
      pre ++ s.encode := by
    rw [encode, body, hswapped]
    simp only [List.append_assoc]
  have hfit : ((pre ++ s.header.encode s.swapped) ++
      s.blocks.flatMap (Block.encode r₁.swapped)).length ≤
        (if s.declares then (pre ++ s.encode).length else buf.length) := by
    rw [hwhole]
    split
    · exact le_rfl
    · rw [hbuf, @List.length_append _ (pre ++ s.encode)]
      exact Nat.le_add_right _ _
  obtain ⟨r₂, hcollect, -, hat₂⟩ :=
    collect_blocks (hswapped ▸ s.well_formed) hblocks hat hfit
  rw [hwhole] at hat₂
  refine ⟨r₂, ?_, hat₂⟩
  rw [Reader.collect_of_skip hgoing hat.going hstep, hcollect, hifaces, hswapped]
  rfl

end Section

/-! ## Files -/

/-- The sections a reader gets to: none behind one that declares its own length. -/
def reached : List Section → List Section
  | [] => []
  | s :: rest => if s.declares then [s] else s :: reached rest

/-- **What a file of sections reads as**, from the start of one of them on. -/
theorem collect_sections {buf pre : Bytes} {sections : List Section} {r : Reader}
    (hbuf : buf = pre ++ sections.flatMap Section.encode) (hr : r.At buf pre.length buf.length) :
    r.collect = (reached sections).flatMap Section.records := by
  induction sections generalizing pre r with
  | nil =>
    apply Reader.collect_at_end hr.going
    rw [hr.end_eq, hr.off_eq, hbuf, List.flatMap_nil, List.append_nil]
  | cons s sections ih =>
    rw [List.flatMap_cons, ← List.append_assoc] at hbuf
    obtain ⟨r', hcollect, hat⟩ := Section.collect_section hbuf hr (Section.header_room hbuf)
    rw [hcollect, reached]
    by_cases hdeclares : s.declares = true
    · rw [if_pos hdeclares] at hat ⊢
      rw [Reader.collect_at_end hat.going (by rw [hat.end_eq, hat.off_eq]), List.append_nil,
        List.flatMap_cons, List.flatMap_nil, List.append_nil]
    · rw [if_neg hdeclares] at hat ⊢
      rw [List.flatMap_cons, ih hbuf hat]

/-- The records of a file, none where it is no pcapng file. -/
def records (file : Bytes) : List Record :=
  match Reader.new file with
  | .ok r => r.collect
  | .error _ => []

/-- The file's own header says nothing about its records. -/
theorem Reader.collect_adopt (r : Reader) (hdone : r.done = false) : r.adopt.collect = r.collect := by
  unfold adopt
  split
  · exact r.collect_with_header hdone _
  · rfl

/-- A file is read to its end. -/
theorem length_file_le (file : Bytes) : file.length ≤ file.length := le_rfl

/-- The reader a file is opened with, before its first section header is read. -/
def Reader.opening (file : Bytes) (swapped : Bool) : Reader where
  buf := file
  off := 0
  end_ := file.length
  swapped := swapped
  ifaces := []
  done := false
  header := ⟨swapped, 0, DEFAULT_TSRESOL⟩
  end_le := length_file_le file

/-- A file that starts with a section opens, inside that section and behind its interfaces. -/
theorem new_encode {s : Section} {rest file : Bytes} (hfile : file = s.encode ++ rest) :
    ∃ r : Reader, Reader.new file = .ok r.lead.adopt ∧
      (Reader.opening file s.swapped).enter_section 0 = some r ∧ r.swapped = s.swapped ∧
      r.ifaces = [] ∧ r.At file (s.header.encode s.swapped).length
        (if s.declares then s.encode.length else file.length) := by
  -- The first section is entered at offset zero; what opening checks before that is the same
  -- header.
  obtain ⟨r, henter, hswapped, hifaces, hat⟩ :=
    Section.enter_section_encode (show file = [] ++ s.encode ++ rest from hfile)
      (show (Reader.opening file s.swapped).buf = file from rfl) rfl
  rw [List.nil_append, List.nil_append] at hat
  refine ⟨r, ?_, henter, hswapped, hifaces, hat⟩
  have hlen := s.length_header
  have hblock : file = [] ++ s.header.encode s.swapped ++ (s.body ++ rest) := by
    rw [hfile, Section.encode, List.nil_append, List.append_assoc]
  have hlong : ¬file.length < 28 := by
    rw [hblock]
    simp only [List.length_append, hlen]
    omega
  -- The type reads alike in both orders, so it is checked before the order is known.
  have htype : rd32 file 0 false = some BLOCK_SHB := by
    have hpalindrome : word32 s.swapped BLOCK_SHB = word32 false BLOCK_SHB := by
      cases s.swapped <;> decide
    refine rd32_word [] (word32 s.swapped (UInt32.ofNat (12 + s.header.body.length)) ++
      s.header.body ++ word32 s.swapped (UInt32.ofNat (12 + s.header.body.length)) ++
        (s.body ++ rest)) ?_ rfl
    rw [← hpalindrome, hblock, Block.encode]
    simp only [Section.header, List.append_assoc]
  obtain ⟨total, htotal⟩ : ∃ t, t = UInt32.ofNat (12 + s.header.body.length) := ⟨_, rfl⟩
  have hbody : s.header.body =
    word32 s.swapped BYTE_ORDER_MAGIC ++ s.version ++ word64 s.swapped s.section_len ++ s.options := rfl
  have hmagic : file = (word32 s.swapped s.header.btype ++ word32 s.swapped total) ++
      word32 s.swapped BYTE_ORDER_MAGIC ++ (s.version ++ word64 s.swapped s.section_len ++ s.options ++
        word32 s.swapped total ++ (s.body ++ rest)) := by
    rw [hblock, List.nil_append, Block.encode, ← htotal, hbody]
    simp only [List.append_assoc]
  have horder : (rd32 file 8 false).bind order_of = some s.swapped := by
    apply Section.order_of_magic _ _ hmagic
    rw [List.length_append, length_word32, length_word32]
  obtain ⟨raw, hraw, hknown⟩ := Option.bind_eq_some_iff.1 horder
  unfold Reader.new
  rw [if_neg hlong, htype, hraw]
  dsimp only
  rw [if_neg (by rw [not_not]), hknown]
  dsimp only
  rw [show Reader.enter_section ⟨file, 0, file.length, s.swapped, [], false,
    ⟨s.swapped, 0, DEFAULT_TSRESOL⟩, le_rfl⟩ 0 = some r from henter]

/-- **Every file of sections yields the records of those reached.** -/
theorem records_file (sections : List Section) :
    records (sections.flatMap Section.encode) = (reached sections).flatMap Section.records := by
  cases sections with
  | nil => rfl
  | cons s sections =>
    obtain ⟨file, hfile⟩ : ∃ file, file = (s :: sections).flatMap Section.encode := ⟨_, rfl⟩
    have hfirst : file = s.encode ++ sections.flatMap Section.encode := by
      rw [hfile, List.flatMap_cons]
    obtain ⟨r, hnew, henter, -, -, hat⟩ := new_encode hfirst
    obtain ⟨hcollect, hdone, -⟩ := r.lead_spec hat.going
    have hopening : (Reader.opening file s.swapped).At file ([] : Bytes).length file.length :=
      ⟨rfl, rfl, rfl, rfl⟩
    have hroom := Section.header_room (show file = [] ++ s.encode ++ _ from hfirst)
    have hstep :=
      Section.step_encode (show file = [] ++ s.encode ++ _ from hfirst) hopening hroom henter
    have hwhole : file = [] ++ (s :: sections).flatMap Section.encode := hfile
    unfold records
    rw [← hfile, hnew]
    dsimp only
    rw [Reader.collect_adopt _ hdone, hcollect,
      ← Reader.collect_of_skip (show (Reader.opening file s.swapped).done = false from rfl) hat.going
        hstep, collect_sections hwhole hopening]

/-- A section read as a file of its own. -/
theorem records_encode (s : Section) : records s.encode = s.records := by
  have h := records_file [s]
  rw [List.flatMap_cons, List.flatMap_nil, List.append_nil, reached] at h
  rw [h]
  split
  · exact List.append_nil _
  · exact List.append_nil _

/-- The sections behind the first that declares its own length. -/
def unreached : List Section → List Section
  | [] => []
  | s :: rest => if s.declares then rest else unreached rest

theorem reached_append_unreached (sections : List Section) :
    reached sections ++ unreached sections = sections := by
  induction sections with
  | nil => rfl
  | cons s sections ih =>
    rw [reached, unreached]
    split
    · rfl
    · rw [List.cons_append, ih]

/-- **A file reads as its sections one by one exactly when those behind the first that declares its
own length hold no record**: the walk ends where that section does. -/
theorem sections_read_apart_iff (sections : List Section) :
    records (sections.flatMap Section.encode) = sections.flatMap (fun s => records s.encode) ↔
      ∀ s ∈ unreached sections, records s.encode = [] := by
  have hapart : sections.flatMap (fun s => records s.encode) =
      (reached sections).flatMap Section.records ++ (unreached sections).flatMap Section.records := by
    have hone : (fun s : Section => records s.encode) = Section.records := funext records_encode
    rw [hone, ← List.flatMap_append, reached_append_unreached]
  rw [records_file, hapart]
  constructor
  · intro h s hs
    have hnil := List.append_cancel_left ((List.append_nil _).trans h)
    rw [records_encode]
    exact List.flatMap_eq_nil_iff.1 hnil.symm s hs
  · intro h
    have hnil : (unreached sections).flatMap Section.records = [] :=
      List.flatMap_eq_nil_iff.2 fun s hs => (records_encode s).symm.trans (h s hs)
    rw [hnil, List.append_nil]

/-- An Ethernet interface. -/
def sample_idb : Block where
  btype := BLOCK_IDB
  body := [1, 0, 0, 0, 0xff, 0xff, 0, 0]
  aligned := rfl
  small := by decide

/-- A packet of four octets on it. -/
def sample_epb : Block where
  btype := BLOCK_EPB
  body := [0, 0, 0, 0, 0, 0, 0, 0, 7, 0, 0, 0, 4, 0, 0, 0, 4, 0, 0, 0, 1, 2, 3, 4]
  aligned := rfl
  small := by decide

theorem sample_blocks_well_formed : ∀ b ∈ [sample_idb, sample_epb], b.WellFormed false := by
  have hidb : sample_idb.WellFormed false :=
    ⟨by decide, fun h => absurd h (by decide), fun h => absurd h (by decide)⟩
  have hcap : rd32 sample_epb.body 12 false = some 4 := by decide
  have hepb : sample_epb.WellFormed false := by
    refine ⟨by decide, fun _ => ⟨by decide, fun caplen h => ?_⟩, fun h => absurd h (by decide)⟩
    rw [hcap] at h
    rw [← Option.some.inj h]
    decide
  exact List.forall_mem_cons.2 ⟨hidb, List.forall_mem_cons.2 ⟨hepb, nofun⟩⟩

theorem length_version_one : ([1, 0, 0, 0] : Bytes).length = 4 := rfl

theorem no_options_aligned : ([] : Bytes).length % 4 = 0 := rfl

theorem no_options_small : 28 + ([] : Bytes).length < 2 ^ 32 := by decide

/-- One interface and one packet, behind a header that does or does not say how long that is. -/
def sample_section (declares : Bool) : Section where
  swapped := false
  declares := declares
  version := [1, 0, 0, 0]
  options := []
  blocks := [sample_idb, sample_epb]
  length_version := rfl
  aligned := rfl
  small := by decide
  well_formed := sample_blocks_well_formed
  extent_lt _ := by decide

/-- **A section that declares its length hides the one behind it.** -/
theorem declared_length_hides_section :
    ¬records ([sample_section true, sample_section false].flatMap Section.encode) =
      [sample_section true, sample_section false].flatMap fun s => records s.encode := by
  have hone : ∀ declares, (sample_section declares).records.length = 1 := by
    intro declares
    have hsame : (sample_section declares).records = (sample_section true).records := rfl
    rw [hsame]
    decide +kernel
  intro h
  have hlen := congrArg List.length h
  rw [records_file] at hlen
  simp only [reached, sample_section, if_true, List.flatMap_cons, List.flatMap_nil, List.append_nil,
    List.length_append] at hlen
  have htrue := records_encode (sample_section true)
  have hfalse := records_encode (sample_section false)
  unfold sample_section at htrue hfalse hone
  rw [htrue, hfalse, hone true, hone false] at hlen
  exact absurd hlen (by decide)

end Wiry.Capture.Pcapng
