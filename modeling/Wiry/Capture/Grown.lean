/-
A pcapng file with octets put behind it: the walk over the longer file beside the walk over the
old one.

A reader of either stands on the same block, and only the end of its section may differ: a length
that is unknown, or that reaches past the old file, reaches further into the longer one.
-/
import Wiry.Capture.Append

set_option autoImplicit false

namespace Wiry.Capture

open Packet Endian Pcapng

namespace Pcapng

/-- A block that is whole inside its section is read alike in a longer section. -/
theorem read_block_at_append {held : Bytes} {swapped : Bool} {e e' off : ℕ} {p : UInt32 × ℕ}
    (more : Bytes) (hle : e ≤ e') (h : read_block_at held swapped e off = some p) :
    read_block_at (held ++ more) swapped e' off = some p := by
  unfold read_block_at at h ⊢
  split at h
  · cases h
  · rw [if_neg (by omega)]
    split at h
    · rename_i btype declared htype hdeclared
      rw [rd32_append more htype, rd32_append more hdeclared]
      dsimp only at h ⊢
      split at h
      · cases h
      · rw [if_neg (by omega)]
        split at h
        · rename_i trailing htrailing
          rw [rd32_append more htrailing]
          exact h
        · cases h
    · cases h

/-- A block read in the old file says the same in the longer one. -/
theorem block_at_append {held : Bytes} {off total : ℕ} (more : Bytes) (hlo : 12 ≤ total)
    (hin : off + total ≤ held.length) (swapped : Bool) (ifaces : List Iface) (header : FileHeader)
    (btype : UInt32) :
    block_at (held ++ more) swapped ifaces header btype off total
      = block_at held swapped ifaces header btype off total := by
  obtain ⟨pre, hpre⟩ : ∃ p, p = held.take off := ⟨_, rfl⟩
  obtain ⟨mid, hmid⟩ : ∃ m, m = (held.drop off).take total := ⟨_, rfl⟩
  obtain ⟨rest, hrest⟩ : ∃ m, m = (held.drop off).drop total := ⟨_, rfl⟩
  have hheld : held = pre ++ mid ++ rest := by
    rw [hpre, hmid, hrest, List.append_assoc, List.take_append_drop, List.take_append_drop]
  have hoff : pre.length = off := by
    rw [hpre, List.length_take]
    omega
  have htotal : mid.length = total := by
    rw [hmid, List.length_take, List.length_drop]
    omega
  have hfile : held ++ more = pre ++ mid ++ (rest ++ more) := by
    rw [hheld, List.append_assoc (pre ++ mid)]
  rw [hfile, hheld, ← hoff, ← htotal, block_at_within _ _ _ _ (by omega),
    block_at_within _ _ _ _ (by omega)]

/-- Where a section that says it ends at `d` is read to in a file of `n` octets. -/
def extent (d : Option ℕ) (n : ℕ) : ℕ :=
  match d with
  | none => n
  | some e => min e n

theorem extent_le (d : Option ℕ) (n : ℕ) : extent d n ≤ n := by
  cases d with
  | none => exact le_rfl
  | some e => exact Nat.min_le_right e n

theorem extent_mono (d : Option ℕ) {n m : ℕ} (h : n ≤ m) : extent d n ≤ extent d m := by
  cases d with
  | none => exact h
  | some e => exact min_le_min_left e h

/-- A reader of the old file, and one of the longer file at the same block. -/
structure Grown (held more : Bytes) (d : Option ℕ) (r g : Reader) : Prop where
  old : r.At held r.off (extent d held.length)
  new : g.At (held ++ more) r.off (extent d (held ++ more).length)
  swapped : g.swapped = r.swapped
  ifaces : g.ifaces = r.ifaces
  header : g.header = r.header

section Growing

variable {held more : Bytes} {d d' : Option ℕ} {r r' g : Reader}

/-- The next section is entered in the longer file as it was in the old one. -/
theorem enter_section_grown (hr : Grown held more d r g)
    (h : r.enter_section r.off = some r') :
    ∃ g', g.enter_section g.off = some g' ∧ Grown held more (section_end r' r.off) r' g' := by
  obtain ⟨hbuf, -, -, hgoing⟩ := hr.old
  obtain ⟨hbuf', hoff, -, hgoing'⟩ := hr.new
  -- Every word and every block the old reader saw stand in the longer file.
  have hword : ∀ {o s v}, rd32 r.buf o s = some v → rd32 g.buf o s = some v := by
    intro o s v hv
    rw [hbuf']
    exact rd32_append more (hbuf ▸ hv)
  have hlong : ∀ {o s v}, rd64 r.buf o s = some v → rd64 g.buf o s = some v := by
    intro o s v hv
    rw [hbuf']
    exact rd64_append more (hbuf ▸ hv)
  have hread : ∀ {s p}, read_block_at r.buf s r.buf.length r.off = some p →
      read_block_at g.buf s g.buf.length r.off = some p := by
    intro s p hp
    rw [hbuf']
    rw [hbuf] at hp
    refine read_block_at_append more ?_ hp
    rw [List.length_append]
    exact Nat.le_add_right _ _
  -- So the same section is entered, branch for branch.
  unfold Reader.enter_section at h ⊢
  rw [hoff]
  split at h
  · cases h
  · rename_i swapped horder
    obtain ⟨raw, hraw, hknown⟩ := Option.bind_eq_some_iff.1 horder
    rw [hword hraw, Option.bind_some, hknown]
    dsimp only
    split at h
    · cases h
    · rename_i btype total hblock
      rw [hread hblock]
      dsimp only
      split at h
      · cases h
      · rename_i hshb
        rw [if_neg hshb]
        split at h
        · cases h
        · rename_i section_len hlen
          rw [hlong hlen]
          have hr' := Option.some.inj h
          have hsame : section_end r' r.off
              = if section_len.toNat ≥ 2 ^ 63 then none else some (r.off + total + section_len.toNat) := by
            rw [← hr']
            unfold section_end
            dsimp only
            rw [hlen]
          refine ⟨_, rfl, ?_⟩
          rw [hsame, ← hr']
          refine ⟨⟨hbuf, rfl, ?_, hgoing⟩, ⟨hbuf', rfl, ?_, hgoing'⟩, rfl, rfl, hr.header⟩
          · dsimp only
            rw [← hbuf]
            split
            · rfl
            · rfl
          · dsimp only
            rw [← hbuf']
            split
            · rfl
            · rfl

/-- A block that is passed in the old file is passed in the longer one. -/
theorem step_grown (hr : Grown held more d r g) :
    (rd32 r.buf r.off r.swapped = some BLOCK_SHB → r.step = .skip r' →
      ∃ g', g.step = .skip g' ∧ Grown held more (section_end r' r.off) r' g') ∧
    (rd32 r.buf r.off r.swapped ≠ some BLOCK_SHB → r.step = .skip r' →
      ∃ g', g.step = .skip g' ∧ Grown held more d r' g') ∧
    ∀ rec, r.step = .yield rec r' → ∃ g', g.step = .yield rec g' ∧ Grown held more d r' g' := by
  obtain ⟨hbuf, -, hend, hgoing⟩ := hr.old
  obtain ⟨hbuf', hoff, hend', hgoing'⟩ := hr.new
  have hmono : r.end_ ≤ g.end_ := by
    rw [hend, hend']
    apply extent_mono
    rw [List.length_append]
    omega
  have hin : r.end_ ≤ held.length := hend ▸ extent_le d held.length
  have htype : ∀ {v}, rd32 r.buf r.off r.swapped = some v →
      rd32 g.buf g.off g.swapped = some v := by
    intro v hv
    rw [hbuf', hoff, hr.swapped]
    exact rd32_append more (hbuf ▸ hv)
  -- behind the type, an ordinary block is read and acted on in both files alike
  have hblock : ∀ {btype total}, read_block_at r.buf r.swapped r.end_ r.off = some (btype, total) →
      read_block_at g.buf g.swapped g.end_ g.off = some (btype, total) ∧
        block_at g.buf g.swapped g.ifaces g.header btype g.off total
          = block_at r.buf r.swapped r.ifaces r.header btype r.off total := by
    intro btype total h
    obtain ⟨hlo, hhi⟩ := read_block_at_bounds h
    rw [hbuf', hoff, hr.swapped, hr.ifaces, hr.header, hbuf]
    rw [hbuf] at h
    exact ⟨read_block_at_append more hmono h,
      block_at_append more hlo (by omega) r.swapped r.ifaces r.header btype⟩
  unfold Reader.step
  by_cases hroom : r.off + 12 > r.end_
  · rw [if_pos hroom]
    exact ⟨fun _ => nofun, fun _ => nofun, fun _ => nofun⟩
  · rw [if_neg hroom, if_neg (by omega)]
    cases ht : rd32 r.buf r.off r.swapped with
    | none => exact ⟨fun _ => nofun, fun _ => nofun, fun _ => nofun⟩
    | some t =>
      rw [htype ht]
      dsimp only
      by_cases hshb : t = BLOCK_SHB
      · rw [if_pos hshb, if_pos hshb]
        refine ⟨fun _ h => ?_, fun hne => absurd (congrArg some hshb) hne, fun rec h => ?_⟩
        · split at h
          · cases h
          · rename_i hsome
            obtain ⟨g', henter, hg'⟩ := enter_section_grown hr hsome
            rw [henter, ← Step.skip.inj h]
            exact ⟨g', rfl, hg'⟩
        · split at h
          · cases h
          · cases h
      · rw [if_neg hshb, if_neg hshb]
        refine ⟨fun he => absurd (Option.some.inj he) hshb, fun _ h => ?_, fun rec h => ?_⟩
        · split at h
          · cases h
          · rename_i btype total hread
            obtain ⟨hread', hact⟩ := hblock hread
            rw [hread']
            dsimp only
            rw [hact]
            split at h
            · cases h
            · rename_i ifaces hskip
              rw [← Step.skip.inj h]
              exact ⟨_, rfl, ⟨hbuf, rfl, hend, hgoing⟩, ⟨hbuf', by dsimp only; rw [hoff], hend', hgoing'⟩,
                hr.swapped, rfl, hr.header⟩
            · cases h
        · split at h
          · cases h
          · rename_i btype total hread
            obtain ⟨hread', hact⟩ := hblock hread
            rw [hread']
            dsimp only
            rw [hact]
            split at h
            · cases h
            · cases h
            · rename_i rec' hyield
              rw [← (Step.yield.inj h).2, (Step.yield.inj h).1]
              exact ⟨_, rfl, ⟨hbuf, rfl, hend, hgoing⟩, ⟨hbuf', by dsimp only; rw [hoff], hend', hgoing'⟩,
                hr.swapped, hr.ifaces, hr.header⟩

/-- **What the old file was read as, the longer one is read as too**, up to where the walk has come. -/
theorem walk_grown {recs : List Record} (hwalk : r.Walk d recs r' d') (hr : Grown held more d r g) :
    ∃ g', Grown held more d' r' g' ∧ r.collect = recs ++ r'.collect ∧
      g.collect = recs ++ g'.collect := by
  -- Step by step the grown reader does what the old one did.
  induction hwalk generalizing g with
  | here r d => exact ⟨g, hr, rfl, rfl⟩
  | enter htype h hs ih =>
    obtain ⟨g₁, hstep, hg₁⟩ := (step_grown hr).1 htype h
    obtain ⟨g', hg', hcollect, hcollect'⟩ := ih hg₁
    refine ⟨g', hg', ?_, ?_⟩
    · rw [Reader.collect_of_skip hr.old.going hg₁.old.going h, hcollect]
    · rw [Reader.collect_of_skip hr.new.going hg₁.new.going hstep, hcollect']
  | skip htype h hs ih =>
    obtain ⟨g₁, hstep, hg₁⟩ := (step_grown hr).2.1 htype h
    obtain ⟨g', hg', hcollect, hcollect'⟩ := ih hg₁
    refine ⟨g', hg', ?_, ?_⟩
    · rw [Reader.collect_of_skip hr.old.going hg₁.old.going h, hcollect]
    · rw [Reader.collect_of_skip hr.new.going hg₁.new.going hstep, hcollect']
  | yield h hs ih =>
    obtain ⟨g₁, hstep, hg₁⟩ := (step_grown hr).2.2 _ h
    obtain ⟨g', hg', hcollect, hcollect'⟩ := ih hg₁
    refine ⟨g', hg', ?_, ?_⟩
    · rw [Reader.collect_of_yield hr.old.going h, hcollect, List.cons_append]
    · rw [Reader.collect_of_yield hr.new.going hstep, hcollect', List.cons_append]

/-- The interface that gives a file its header: the first block behind the section header. -/
def first_iface (r : Reader) : Option Iface :=
  match read_block_at r.buf r.swapped r.end_ r.off with
  | some (btype, total) =>
    if btype = BLOCK_IDB then some (parse_idb r.buf r.swapped r.off total) else none
  | none => none

theorem lead_header (r : Reader) : r.lead.header = r.header := Reader.lead_keeps (fun _ _ _ => rfl) r

/-- The first interface the leading blocks describe is the first interface block of the section. -/
theorem lead_head (hgoing : r.done = false) (hnone : r.ifaces = []) :
    r.lead.ifaces.head? = first_iface r := by
  unfold first_iface
  -- What the lead finds first is what stands at the offset, if that is an interface block.
  cases hblock : read_block_at r.buf r.swapped r.end_ r.off with
  | none =>
    rw [Reader.lead_of_no_idb (fun total h => by rw [hblock] at h; cases h), hnone]
    rfl
  | some p =>
    obtain ⟨btype, total⟩ := p
    dsimp only
    by_cases hidb : btype = BLOCK_IDB
    · subst hidb
      rw [if_pos rfl, Reader.lead_of_idb hblock]
      obtain ⟨-, -, later, hlater⟩ := Reader.lead_spec
        { r with
          off := r.off + total
          ifaces := r.ifaces ++ [parse_idb r.buf r.swapped r.off total] } hgoing
      rw [hlater, hnone]
      rfl
    -- another block ends the lead before it starts
    · have hother : ∀ total, read_block_at r.buf r.swapped r.end_ r.off ≠ some (BLOCK_IDB, total) := by
        intro total' h
        rw [hblock, Option.some.injEq, Prod.mk.injEq] at h
        exact hidb h.1
      rw [if_neg hidb, Reader.lead_of_no_idb hother, hnone]
      rfl

/-- The header is in nanoseconds exactly where that interface is. -/
theorem adopt_nanos (hgoing : r.done = false) (hnone : r.ifaces = []) :
    r.lead.adopt.header.nanos
      = (((first_iface r).map Iface.tsresol).getD r.header.tsresol == 1000000000) := by
  have hheader := lead_header r
  rw [← lead_head hgoing hnone]
  unfold Reader.adopt FileHeader.nanos
  split
  · rename_i first hfirst
    rw [hfirst]
    rfl
  · rename_i hfirst
    rw [hfirst, hheader]
    rfl

/-- Where the walk begins the file's header is decided, unless a section begins there again. -/
theorem walk_begins {recs : List Record} (hwalk : r.Walk d recs r' d') :
    r = r' ∨ rd32 r.buf r.off r.swapped = some BLOCK_SHB ∨
      ∃ p, read_block_at r.buf r.swapped r.end_ r.off = some p := by
  -- A step that does not stop has read a section header's type or a whole block.
  have hread : ∀ {st}, r.step = st → st ≠ .stop →
      rd32 r.buf r.off r.swapped = some BLOCK_SHB ∨
        ∃ p, read_block_at r.buf r.swapped r.end_ r.off = some p := by
    intro st hst hne
    unfold Reader.step at hst
    split at hst
    · exact absurd hst.symm hne
    · split at hst
      · exact absurd hst.symm hne
      · rename_i t ht
        split at hst
        · rename_i hshb
          exact Or.inl (hshb ▸ ht)
        · split at hst
          · exact absurd hst.symm hne
          · rename_i btype total hblock
            exact Or.inr ⟨_, hblock⟩
  cases hwalk with
  | here => exact Or.inl rfl
  | enter htype => exact Or.inr (Or.inl htype)
  | skip htype h => exact Or.inr (hread h nofun)
  | yield h => exact Or.inr (hread h nofun)

/-- The first interface is the same where there is one, and where a section begins there is none. -/
theorem first_iface_grown (hr : Grown held more d r g)
    (hnext : rd32 g.buf g.off g.swapped = some BLOCK_SHB ∨
      ∃ p, read_block_at r.buf r.swapped r.end_ r.off = some p) :
    first_iface g = first_iface r := by
  obtain ⟨hbuf, -, hend, -⟩ := hr.old
  obtain ⟨hbuf', hoff, hend', -⟩ := hr.new
  -- The section only grew, so a block of the old one is a block of the new one.
  have hmono : r.end_ ≤ g.end_ := by
    rw [hend, hend']
    apply extent_mono
    rw [List.length_append]
    omega
  have hin : r.end_ ≤ held.length := hend ▸ extent_le d held.length
  have hgrow : ∀ {p}, read_block_at r.buf r.swapped r.end_ r.off = some p →
      read_block_at g.buf g.swapped g.end_ g.off = some p := by
    intro p h
    rw [hbuf', hoff, hr.swapped]
    exact read_block_at_append more hmono (hbuf ▸ h)
  unfold first_iface
  cases hblock : read_block_at r.buf r.swapped r.end_ r.off with
  | some p =>
    obtain ⟨btype, total⟩ := p
    obtain ⟨hlo, hhi⟩ := read_block_at_bounds hblock
    have hsame := block_at_append more hlo (show r.off + total ≤ held.length by omega) r.swapped []
      r.header BLOCK_IDB
    unfold block_at at hsame
    rw [if_pos rfl, if_pos rfl] at hsame
    have hparse := List.append_cancel_left (Pass.skip.inj hsame)
    rw [hgrow hblock]
    dsimp only
    rw [hbuf', hoff, hr.swapped, hbuf, (List.cons.inj hparse).1]
  -- Where the old section had none, the new one has a section header, which is no interface.
  | none =>
    have hshb : rd32 g.buf g.off g.swapped = some BLOCK_SHB := by
      rcases hnext with h | ⟨p, hp⟩
      · exact h
      · rw [hblock] at hp
        cases hp
    split
    · rename_i btype total h
      have htype := (read_block_at_type h).2
      rw [hshb] at htype
      rw [← Option.some.inj htype]
      rfl
    · rfl

end Growing

/-- What opening a file comes to. -/
structure Opens (file : Bytes) (swapped : Bool) (r : Reader) : Prop where
  length_ge : 28 ≤ file.length
  type_eq : rd32 file 0 false = some BLOCK_SHB
  order_eq : (rd32 file 8 false).bind order_of = some swapped
  enters : (Reader.opening file swapped).enter_section 0 = some r

/-- Opening a file: the first section header, the leading interface blocks and the header taken from
them. -/
theorem new_iff (file : Bytes) (r' : Reader) :
    Reader.new file = .ok r' ↔ ∃ swapped r, Opens file swapped r ∧ r' = r.lead.adopt := by
  unfold Reader.new
  constructor
  -- The guards of opening, read off one by one.
  · intro h
    split at h
    · cases h
    · rename_i hlen
      split at h
      · rename_i btype raw htype hraw
        split at h
        · cases h
        · rename_i hshb
          split at h
          · cases h
          · rename_i swapped horder
            dsimp only at h
            split at h
            · cases h
            · rename_i r henter
              refine ⟨swapped, r, ⟨by omega, ?_, ?_, henter⟩, (Except.ok.inj h).symm⟩
              · rw [htype, not_not.1 hshb]
              · rw [hraw, Option.bind_some, horder]
      · cases h
  · rintro ⟨swapped, r, ⟨hlen, htype, horder, henter⟩, rfl⟩
    obtain ⟨raw, hraw, hknown⟩ := Option.bind_eq_some_iff.1 horder
    rw [if_neg (by omega), htype, hraw]
    dsimp only
    rw [if_neg (by rw [not_not]), hknown]
    dsimp only
    unfold Reader.opening at henter
    rw [henter]

/-- The first section is entered by the walk's first step. -/
theorem Opens.step {file : Bytes} {swapped : Bool} {r : Reader} (h : Opens file swapped r) :
    rd32 file 0 swapped = some BLOCK_SHB ∧ (Reader.opening file swapped).step = .skip r := by
  have htype : rd32 file 0 swapped = some BLOCK_SHB := by
    cases swapped with
    | false => exact h.type_eq
    | true =>
      rw [rd32_true, h.type_eq]
      decide
  have hlen := h.length_ge
  refine ⟨htype, ?_⟩
  have hroom : ¬(Reader.opening file swapped).off + 12 > (Reader.opening file swapped).end_ := by
    show ¬0 + 12 > file.length
    omega
  unfold Reader.step
  rw [if_neg hroom,
    show rd32 (Reader.opening file swapped).buf (Reader.opening file swapped).off
      (Reader.opening file swapped).swapped = some BLOCK_SHB from htype]
  dsimp only
  rw [if_pos rfl, show (Reader.opening file swapped).off = 0 from rfl, h.enters]

/-- A new section starts with no interfaces. -/
theorem enter_section_fresh {r r' : Reader} {off : ℕ} (h : r.enter_section off = some r') :
    r'.ifaces = [] ∧ r'.done = r.done := by
  unfold Reader.enter_section at h
  split at h
  · cases h
  · split at h
    · cases h
    · split at h
      · cases h
      · split at h
        · cases h
        · rw [← Option.some.inj h]
          exact ⟨rfl, rfl⟩

/-- What is read of a file that opens. -/
theorem Opens.read {file : Bytes} {swapped : Bool} {r : Reader} (h : Opens file swapped r) :
    read_pcap file = some (((first_iface r).map Iface.tsresol).getD DEFAULT_TSRESOL == 1000000000,
      (Reader.opening file swapped).collect) := by
  obtain ⟨hfresh, hdone⟩ := enter_section_fresh h.enters
  have hgoing : r.done = false := hdone
  have hnew := (new_iff file r.lead.adopt).2 ⟨swapped, r, h, rfl⟩
  obtain ⟨hcollect, hlead, -⟩ := r.lead_spec hgoing
  have hshb : is_pcapng file = true := decide_eq_true h.type_eq
  have hheader : r.header.tsresol = DEFAULT_TSRESOL := by
    rw [enter_section_header h.enters]
    rfl
  unfold read_pcap
  rw [if_pos hshb, hnew]
  dsimp only
  rw [adopt_nanos hgoing hfresh, hheader, Reader.collect_adopt _ hlead, hcollect,
    Reader.collect_of_skip rfl hgoing h.step.2]

theorem Opens.grown {file : Bytes} {swapped : Bool} {r r' : Reader} (h : Opens file swapped r)
    (more : Bytes) (henter : (Reader.opening (file ++ more) swapped).enter_section 0 = some r') :
    Opens (file ++ more) swapped r' := by
  obtain ⟨raw, hraw, hknown⟩ := Option.bind_eq_some_iff.1 h.order_eq
  have hlen := h.length_ge
  refine ⟨?_, rd32_append _ h.type_eq, ?_, henter⟩
  · rw [List.length_append]
    omega
  · rw [rd32_append _ hraw, Option.bind_some, hknown]

theorem opens_of_read {file : Bytes} {scale : Bool} {recs : List Record}
    (hpcapng : is_pcapng file = true) (h : read_pcap file = some (scale, recs)) :
    ∃ swapped r, Opens file swapped r := by
  unfold read_pcap at h
  rw [if_pos hpcapng] at h
  split at h
  · cases h
  · rename_i r' hnew
    obtain ⟨swapped, r, hopens, -⟩ := (new_iff file r').1 hnew
    exact ⟨swapped, r, hopens⟩

/-- **A section put behind a file whose walk ends with it is read behind what the file held**, at
the scale the file had. -/
theorem read_appended {held : Bytes} {scale : Bool} {olds : List Record} (s : Section)
    (hpcapng : is_pcapng held = true) (hread : read_pcap held = some (scale, olds))
    (hends : WalkEnds held) : read_pcap (held ++ s.encode) = some (scale, olds ++ s.records) := by
  obtain ⟨swapped', r₀, hopens⟩ := opens_of_read hpcapng hread
  obtain ⟨swapped, recs, r, d, horder, hwalk, hoff, hroom⟩ := hends
  have hsame : swapped' = swapped := by
    rw [hopens.order_eq] at horder
    exact Option.some.inj horder
  subst hsame
  obtain ⟨htype, hstep⟩ := hopens.step
  have hlen := hopens.length_ge
  -- the first step is the first section's
  have hfrom : r₀.Walk (section_end r₀ 0) recs r d := by
    cases hwalk with
    | here => exact absurd hoff (by show 0 ≠ _; omega)
    | enter _ h hs =>
      rw [hstep] at h
      cases h
      exact hs
    | skip hne => exact absurd htype hne
    | yield h =>
      rw [hstep] at h
      cases h
  have hopening : Grown held s.encode none (Reader.opening held swapped')
      (Reader.opening (held ++ s.encode) swapped') :=
    ⟨⟨rfl, rfl, rfl, rfl⟩, ⟨rfl, rfl, rfl, rfl⟩, rfl, rfl, rfl⟩
  obtain ⟨g₀, henter, hg₀⟩ := enter_section_grown hopening hopens.enters
  have hopens' := hopens.grown s.encode henter
  -- behind the old file the walk is at the new section
  have hfile : held ++ s.encode = held ++ s.encode ++ [] := (List.append_nil _).symm
  have hshb : ∀ b, rd32 (held ++ s.encode) held.length b = some BLOCK_SHB := by
    intro b
    refine rd32_word held (word32 s.swapped (UInt32.ofNat (12 + s.header.body.length)) ++
      s.header.body ++ word32 s.swapped (UInt32.ofNat (12 + s.header.body.length)) ++ s.body) ?_ rfl
    have hpalindrome : word32 b BLOCK_SHB = word32 s.swapped BLOCK_SHB := by
      cases b <;> cases s.swapped <;> decide
    rw [hpalindrome, Section.encode, Block.encode]
    simp only [Section.header, List.append_assoc]
  obtain ⟨g, hg, hcollect, hcollect'⟩ := walk_grown hfrom hg₀
  have hold : r.collect = [] := by
    apply Reader.collect_at_end hg.old.going
    rw [hg.old.end_eq, hoff]
    exact extent_le d _
  have hnew : g.collect = s.records := by
    have hat := hg.new
    rw [hoff] at hat
    have hmore : held.length + 12 ≤ extent d (held ++ s.encode).length := by
      have hheader := Section.header_room hfile
      cases d with
      | none => exact hheader
      | some e => exact le_min (hroom e rfl) hheader
    obtain ⟨g', hsection, hg'⟩ := Section.collect_section hfile hat hmore
    have hlast : g'.collect = [] := by
      apply Reader.collect_at_end hg'.going
      rw [hg'.off_eq, ← hg'.buf_eq]
      exact g'.end_le
    rw [hsection, hlast, List.append_nil]
  have hfirst : first_iface g₀ = first_iface r₀ := by
    apply first_iface_grown hg₀
    rcases walk_begins hfrom with h | h | h
    · left
      rw [hg₀.new.buf_eq, hg₀.new.off_eq, h, hoff]
      exact hshb _
    · left
      rw [hg₀.new.buf_eq, hg₀.new.off_eq, hg₀.swapped]
      exact rd32_append _ (hg₀.old.buf_eq ▸ h)
    · exact Or.inr h
  have hheld := hopens.read
  rw [hread, Option.some.injEq, Prod.mk.injEq] at hheld
  rw [hopens'.read, hfirst, ← hheld.1,
    Reader.collect_of_skip rfl hg₀.new.going hopens'.step.2, hcollect', hnew, hheld.2,
    Reader.collect_of_skip rfl hg₀.old.going hstep, hcollect, hold, List.append_nil]

end Pcapng

end Wiry.Capture
