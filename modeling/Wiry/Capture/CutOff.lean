/-
A pcapng file that ends inside a block, and what the walk makes of what is put behind it.

The block takes octets of the new section. Where it happens to end in its own length again, the
walk goes on at a word of that section that begins no block.
-/
import Mathlib.Tactic.IntervalCases
import Wiry.Capture.Grown

set_option autoImplicit false

namespace Wiry.Capture

open Packet Endian Pcapng

namespace Pcapng

/-! ## Where a stopped walk goes on -/

/-- What it takes for a block to be read. -/
theorem read_block_at_iff {buf : Bytes} {swapped : Bool} {end_ off total : ℕ} {btype : UInt32} :
    read_block_at buf swapped end_ off = some (btype, total) ↔
      ∃ declared, rd32 buf off swapped = some btype ∧ rd32 buf (off + 4) swapped = some declared ∧
        total = pad4 declared.toNat ∧ 12 ≤ declared.toNat ∧ off + total ≤ end_ ∧
        rd32 buf (off + total - 4) swapped = some declared := by
  unfold read_block_at
  constructor
  -- From the reader's guards to the words it read.
  · intro h
    split at h
    · cases h
    · split at h
      · rename_i btype' declared htype hdeclared
        dsimp only at h
        split at h
        · cases h
        · rename_i hbound
          split at h
          · rename_i trailing htrailing
            split at h
            · rename_i hsame
              rw [Option.some.injEq, Prod.mk.injEq] at h
              obtain ⟨rfl, rfl⟩ := h
              exact ⟨declared, htype, hdeclared, rfl, by omega, by omega, hsame ▸ htrailing⟩
            · cases h
          · cases h
      · cases h
  -- And back: each guard holds of those words.
  · rintro ⟨declared, htype, hdeclared, rfl, hlo, hfit, htrailing⟩
    have hpad := le_pad4 declared.toNat
    rw [if_neg (by omega), htype, hdeclared]
    dsimp only
    rw [if_neg (by omega), htrailing]
    dsimp only
    rw [if_pos rfl]

/-- A block of the longer file that lies in the old one is read there. -/
theorem read_block_at_old {held more : Bytes} {swapped : Bool} {e e' off total : ℕ} {btype : UInt32}
    (hin : off + total ≤ held.length) (hend : off + total ≤ e)
    (h : read_block_at (held ++ more) swapped e' off = some (btype, total)) :
    read_block_at held swapped e off = some (btype, total) := by
  obtain ⟨declared, htype, hdeclared, htotal, hlo, hfit, htrailing⟩ := read_block_at_iff.1 h
  have hpad := le_pad4 declared.toNat
  rw [rd32_append_eq _ (by omega)] at htype hdeclared htrailing
  exact read_block_at_iff.2 ⟨declared, htype, hdeclared, htotal, hlo, hend, htrailing⟩

theorem extent_within {d : Option ℕ} {n m x : ℕ} (hm : x ≤ extent d m) (hn : x ≤ n) :
    x ≤ extent d n := by
  cases d with
  | none => exact hn
  | some e => exact le_min (hm.trans (Nat.min_le_left e m)) hn

/-- The block a pass of the loop gets behind. -/
structure Moves (r r' : Reader) (swapped : Bool) (total : ℕ) : Prop where
  order : swapped = r.swapped ∨ rd32 r.buf r.off r.swapped = some BLOCK_SHB ∧
    (rd32 r.buf (r.off + 8) false).bind order_of = some swapped
  reads : ∃ btype, read_block_at r.buf swapped r.buf.length r.off = some (btype, total)
  buf : r'.buf = r.buf
  off : r'.off = r.off + total
  swapped : r'.swapped = swapped

/-- Every step that is not the last moves the reader over one block. -/
theorem step_moves {r r' : Reader} (h : r.step = .skip r' ∨ ∃ rec, r.step = .yield rec r') :
    ∃ swapped total, Moves r r' swapped total := by
  have hend := r.end_le
  -- A block inside its section is one inside the file as well.
  have hwhole : ∀ {btype total}, read_block_at r.buf r.swapped r.end_ r.off = some (btype, total) →
      read_block_at r.buf r.swapped r.buf.length r.off = some (btype, total) := by
    intro btype total hread
    obtain ⟨declared, htype, hdeclared, htotal, hlo, hfit, htrailing⟩ := read_block_at_iff.1 hread
    exact read_block_at_iff.2 ⟨declared, htype, hdeclared, htotal, hlo, by omega, htrailing⟩
  unfold Reader.step at h
  split at h
  · rcases h with h | ⟨rec, h⟩
    · cases h
    · cases h
  · split at h
    · rcases h with h | ⟨rec, h⟩
      · cases h
      · cases h
    · rename_i t ht
      -- A section header is read in the order it states itself; anything else in the section's.
      split at h
      · rename_i hshb
        split at h
        · rcases h with h | ⟨rec, h⟩
          · cases h
          · cases h
        · rename_i r₁ henter
          rcases h with h | ⟨rec, h⟩
          · rw [← Step.skip.inj h]
            unfold Reader.enter_section at henter
            split at henter
            · cases henter
            · rename_i swapped horder
              split at henter
              · cases henter
              · rename_i btype total hread
                split at henter
                · cases henter
                · split at henter
                  · cases henter
                  · rw [← Option.some.inj henter]
                    exact ⟨swapped, total, Or.inr ⟨hshb ▸ ht, horder⟩, ⟨btype, hread⟩, rfl, rfl, rfl⟩
          · cases h
      · split at h
        · rcases h with h | ⟨rec, h⟩
          · cases h
          · cases h
        · rename_i btype total hread
          split at h
          · rcases h with h | ⟨rec, h⟩
            · cases h
            · cases h
          · rcases h with h | ⟨rec, h⟩
            · rw [← Step.skip.inj h]
              exact ⟨r.swapped, total, Or.inl rfl, ⟨btype, hwhole hread⟩, rfl, rfl, rfl⟩
            · cases h
          · rcases h with h | ⟨rec, h⟩
            · cases h
            · rw [← (Step.yield.inj h).2]
              exact ⟨r.swapped, total, Or.inl rfl, ⟨btype, hwhole hread⟩, rfl, rfl, rfl⟩

section Stopping

variable {held more : Bytes} {d : Option ℕ} {r g g' : Reader}

theorem Grown.word (hr : Grown held more d r g) {o : ℕ} {swapped : Bool} (ho : o + 4 ≤ held.length) :
    rd32 g.buf o swapped = rd32 r.buf o swapped := by
  rw [hr.new.buf_eq, hr.old.buf_eq, rd32_append_eq more ho]

/-- A section header that lies in the old file is entered there too. -/
theorem Grown.enters_old (hr : Grown held more d r g) {g₁ : Reader}
    (henter : g.enter_section r.off = some g₁) (hin : g₁.off ≤ held.length)
    (hroom : r.off + 12 ≤ held.length) : ∃ r₁, r.enter_section r.off = some r₁ := by
  obtain ⟨hbuf, -, -, -⟩ := hr.old
  obtain ⟨hbuf', -, -, -⟩ := hr.new
  unfold Reader.enter_section at henter ⊢
  split at henter
  · cases henter
  · rename_i order horder
    rw [hr.word (by omega)] at horder
    rw [horder]
    dsimp only
    split at henter
    · cases henter
    · rename_i btype size hread
      split at henter
      · cases henter
      · rename_i hsize
        split at henter
        · cases henter
        · rename_i len hlen
          -- the header's block ends in the old file, so it is read there the same
          have hland := congrArg Reader.off (Option.some.inj henter)
          dsimp only at hland
          have hlong : rd64 g.buf (r.off + 16) order = rd64 r.buf (r.off + 16) order := by
            unfold rd64
            rw [hr.word (by omega), hr.word (by omega)]
          rw [hbuf'] at hread
          have hold := read_block_at_old (e := held.length) (by omega) (by omega) hread
          rw [← hbuf] at hold
          rw [hlong] at hlen
          rw [hold]
          dsimp only
          rw [if_neg hsize, hlen]
          exact ⟨_, rfl⟩

/-- **A block that lies in the old file is passed there too**: a walk that stopped goes on in the
longer file only behind a block that ends in what was added. -/
theorem stopped_goes_on (hr : Grown held more d r g) (hstop : r.step = .stop)
    (hstep : g.step = .skip g' ∨ ∃ rec, g.step = .yield rec g') : held.length < g'.off := by
  obtain ⟨hbuf, -, hend, -⟩ := hr.old
  obtain ⟨hbuf', hoff, hend', -⟩ := hr.new
  by_contra hin
  have hmono : r.end_ ≤ held.length := hend ▸ extent_le d held.length
  have hroom : ∀ {x}, x ≤ g.end_ → x ≤ held.length → x ≤ r.end_ := by
    intro x hx hn
    rw [hend]
    exact extent_within (hend' ▸ hx) hn
  obtain ⟨swapped, total, hmoves⟩ := step_moves hstep
  obtain ⟨btype₀, hread₀⟩ := hmoves.reads
  have hg' := hmoves.off
  obtain ⟨hlo, -⟩ := read_block_at_bounds hread₀
  unfold Reader.step at hstep
  split at hstep
  · rcases hstep with h | ⟨rec, h⟩
    · cases h
    · cases h
  · rename_i hg
    split at hstep
    · rcases hstep with h | ⟨rec, h⟩
      · cases h
      · cases h
    · rename_i t ht
      rw [hoff, hr.swapped, hr.word (by omega)] at ht
      have hhere := hroom (show r.off + 12 ≤ g.end_ by omega) (by omega)
      unfold Reader.step at hstop
      rw [if_neg (by omega), ht] at hstop
      dsimp only at hstop
      split at hstep
      · -- a section header: what entering it looks at lies in the old file
        rename_i hshb
        rw [if_pos hshb] at hstop
        split at hstep
        · rcases hstep with h | ⟨rec, h⟩
          · cases h
          · cases h
        · rename_i g₁ henter
          have hsame : g₁ = g' := by
            rcases hstep with h | ⟨rec, h⟩
            · exact Step.skip.inj h
            · cases h
          subst hsame
          obtain ⟨r₁, hr₁⟩ := hr.enters_old (hoff ▸ henter) (by omega) (by omega)
          rw [hr₁] at hstop
          cases hstop
      · -- any other block: it is read alike, and what is made of it is the same
        rename_i hshb
        rw [if_neg hshb] at hstop
        split at hstep
        · rcases hstep with h | ⟨rec, h⟩
          · cases h
          · cases h
        · rename_i btype size hread
          obtain ⟨hlo', hfit⟩ := read_block_at_bounds hread
          rw [hoff] at hfit
          have hland : block_at g.buf g.swapped g.ifaces g.header btype g.off size ≠ .stop →
              g'.off = r.off + size := by
            intro hne
            split at hstep
            · exact absurd ‹_› hne
            · rcases hstep with h | ⟨rec, h⟩
              · rw [← Step.skip.inj h, ← hoff]
              · cases h
            · rcases hstep with h | ⟨rec, h⟩
              · cases h
              · rw [← (Step.yield.inj h).2, ← hoff]
          have hgo : block_at g.buf g.swapped g.ifaces g.header btype g.off size ≠ .stop := by
            intro hact
            rw [hact] at hstep
            rcases hstep with h | ⟨rec, h⟩
            · cases h
            · cases h
          have hbehind := hland hgo
          rw [hbuf', hoff, hr.swapped] at hread
          have hold := read_block_at_old (e := r.end_) (by omega)
            (hroom (show r.off + size ≤ g.end_ by omega) (by omega)) hread
          rw [← hbuf] at hold
          rw [hold] at hstop
          dsimp only at hstop
          rw [hbuf', hoff, hr.swapped, hr.ifaces, hr.header,
            block_at_append more hlo' (by omega), ← hbuf] at hgo
          split at hstop
          · exact hgo ‹_›
          · cases hstop
          · cases hstop

end Stopping

/-- Every walk comes to an end. -/
theorem walk_stops (r : Reader) (d : Option ℕ) :
    ∃ recs r' d', r.Walk d recs r' d' ∧ r'.step = .stop := by
  induction hn : r.buf.length - r.off using Nat.strong_induction_on generalizing r d with
  | _ n ih =>
    cases hstep : r.step with
    | stop => exact ⟨[], r, d, .here r d, hstep⟩
    | skip r' =>
      have hlt := (Reader.step_skip_ahead hstep).lt
      by_cases htype : rd32 r.buf r.off r.swapped = some BLOCK_SHB
      · obtain ⟨recs, r'', d', hwalk, hstop⟩ := ih _ (hn ▸ hlt) r' (section_end r' r.off) rfl
        exact ⟨recs, r'', d', .enter htype hstep hwalk, hstop⟩
      · obtain ⟨recs, r'', d', hwalk, hstop⟩ := ih _ (hn ▸ hlt) r' d rfl
        exact ⟨recs, r'', d', .skip htype hstep hwalk, hstop⟩
    | yield rec r' =>
      have hlt := (Reader.step_yield_ahead hstep).lt
      obtain ⟨recs, r'', d', hwalk, hstop⟩ := ih _ (hn ▸ hlt) r' d rfl
      exact ⟨rec :: recs, r'', d', .yield hstep hwalk, hstop⟩

/-- Blocks are whole words, so a walk that starts on one is always on one. -/
theorem walk_aligned {r r' : Reader} {d d' : Option ℕ} {recs : List Record}
    (hwalk : r.Walk d recs r' d') (hoff : r.off % 4 = 0) (hle : r.off ≤ r.buf.length) :
    r'.off % 4 = 0 ∧ r'.off ≤ r'.buf.length := by
  -- a step passes a padded block, which is whole
  have hone : ∀ {r r' : Reader}, (r.step = .skip r' ∨ ∃ rec, r.step = .yield rec r') →
      r.off % 4 = 0 → r'.off % 4 = 0 ∧ r'.off ≤ r'.buf.length := by
    intro r r' hstep hoff
    obtain ⟨swapped, total, hmoves⟩ := step_moves hstep
    obtain ⟨btype, hread⟩ := hmoves.reads
    obtain ⟨declared, -, -, htotal, -, hfit, -⟩ := read_block_at_iff.1 hread
    have hpad : pad4 declared.toNat % 4 = 0 := Nat.mul_mod_left _ 4
    rw [hmoves.off, hmoves.buf]
    exact ⟨by omega, hfit⟩
  induction hwalk with
  | here r d => exact ⟨hoff, hle⟩
  | enter htype h hs ih =>
    obtain ⟨hoff', hle'⟩ := hone (Or.inl h) hoff
    exact ih hoff' hle'
  | skip htype h hs ih =>
    obtain ⟨hoff', hle'⟩ := hone (Or.inl h) hoff
    exact ih hoff' hle'
  | yield h hs ih =>
    obtain ⟨hoff', hle'⟩ := hone (Or.inr ⟨_, h⟩) hoff
    exact ih hoff' hle'

end Pcapng

/-! ## What it then reads -/

/-- The words that two records of no data at time zero are written in, behind the section and its
interface. -/
def probe_words (linktype snaplen : UInt32) (nanos : Bool) : List UInt32 :=
  let total : UInt32 := if nanos then 32 else 20
  [BLOCK_SHB, 28, BYTE_ORDER_MAGIC, 1, 0xffffffff, 0xffffffff, 28, BLOCK_IDB, total, linktype, snaplen]
    ++ (if nanos then [0x00010009, 9, 0] else [])
    ++ [total, 6, 32, 0, 0, 0, 0, 0, 32, 6, 32, 0, 0, 0, 0, 0, 32]

theorem le16_pad {linktype : UInt32} (hlink : linktype.toNat < 2 ^ 16) :
    le16 linktype.toUInt16 ++ le16 0 = le32 linktype := by
  have hsame : linktype.toUInt16.toNat = linktype.toNat := by
    rw [UInt32.toNat_toUInt16, Nat.mod_eq_of_lt hlink]
  rw [le16, le16, le32, hsame]
  have htwo : (UInt16.toNat 0) = 0 := rfl
  simp only [digits, htwo]
  have hbig : linktype.toNat / 256 / 256 = 0 := by omega
  simp [hbig]

/-- The probe file as a list of words, so that it can be read with either byte order. -/
theorem probe_eq (snaplen : UInt32) (nanos : Bool) {linktype : UInt32} (hlink : linktype.toNat < 2 ^ 16)
    {w : Captured nanos} (hw : w.toWritten = ⟨0, 0, [], 0⟩) :
    write_shb ++ write_idb linktype snaplen nanos ++ [w, w].flatMap (fun w => encode true nanos w.toWritten)
      = (probe_words linktype snaplen nanos).flatMap le32 := by
  have hshb : write_shb
      = [BLOCK_SHB, 28, BYTE_ORDER_MAGIC, 1, 0xffffffff, 0xffffffff, 28].flatMap le32 := by decide
  have hepb : encode true nanos w.toWritten = [6, 32, 0, 0, 0, 0, 0, 32].flatMap le32 := by
    rw [hw]
    cases nanos <;> decide
  rw [List.flatMap_cons, List.flatMap_cons, List.flatMap_nil, List.append_nil, hepb, hshb]
  unfold write_idb
  rw [le16_pad hlink]
  cases nanos with
  | false =>
    unfold write_block
    simp [probe_words, length_le32]
    rfl
  | true =>
    unfold write_block
    simp [probe_words, length_le32]
    rfl

/-- A word as a section of that byte order reads it. -/
def sees (swapped : Bool) (v : UInt32) : UInt32 := if swapped then swap32 v else v

/-- A word of sixteen bits read the other way is a multiple of 2^16. -/
theorem swap32_narrow {v : UInt32} (h : v.toNat < 2 ^ 16) : (swap32 v).toNat % 2 ^ 16 = 0 := by
  have hle : le32 v = [UInt8.ofNat v.toNat, UInt8.ofNat (v.toNat / 2 ^ 8), 0, 0] := by
    have hthird : v.toNat / 2 ^ 8 / 2 ^ 8 = 0 := by omega
    rw [le32]
    simp only [digits, hthird]
    rfl
  unfold swap32 from_le32
  rw [hle]
  simp only [List.reverse_cons, List.reverse_nil, List.nil_append, List.cons_append, value]
  have h0 : (0 : UInt8).toNat = 0 := rfl
  rw [UInt32.toNat_ofNat', h0]
  omega

/-- The words as numbers. -/
def seen (swapped nanos : Bool) (linktype snaplen : UInt32) : List ℕ :=
  (probe_words linktype snaplen nanos).map fun v => (sees swapped v).toNat

/-- The words of the probe as a reader of either byte order sees them, evaluated once. -/
theorem seen_eq (swapped nanos : Bool) (linktype snaplen : UInt32) :
    seen swapped nanos linktype snaplen =
      match swapped, nanos with
      | false, false => [168627466, 28, 439041101, 1, 4294967295, 4294967295, 28, 1, 20,
          linktype.toNat, snaplen.toNat, 20, 6, 32, 0, 0, 0, 0, 0, 32, 6, 32, 0, 0, 0, 0, 0, 32]
      | false, true => [168627466, 28, 439041101, 1, 4294967295, 4294967295, 28, 1, 32,
          linktype.toNat, snaplen.toNat, 65545, 9, 0, 32, 6, 32, 0, 0, 0, 0, 0, 32, 6, 32, 0, 0, 0, 0,
          0, 32]
      | true, false => [168627466, 469762048, 1295788826, 16777216, 4294967295, 4294967295, 469762048,
          16777216, 335544320, (swap32 linktype).toNat, (swap32 snaplen).toNat, 335544320, 100663296,
          536870912, 0, 0, 0, 0, 0, 536870912, 100663296, 536870912, 0, 0, 0, 0, 0, 536870912]
      | true, true => [168627466, 469762048, 1295788826, 16777216, 4294967295, 4294967295, 469762048,
          16777216, 536870912, (swap32 linktype).toNat, (swap32 snaplen).toNat, 150995200, 150994944,
          0, 536870912, 100663296, 536870912, 0, 0, 0, 0, 0, 536870912, 100663296, 536870912, 0, 0, 0,
          0, 0, 536870912] := by
  cases swapped <;> cases nanos <;> rfl

theorem length_seen (swapped nanos : Bool) (linktype snaplen : UInt32) :
    (seen swapped nanos linktype snaplen).length = if nanos then 31 else 28 := by
  rw [seen_eq]
  cases swapped <;> cases nanos <;> rfl

/-- Behind the snap length the other byte order sees no small number but zero. -/
theorem seen_tail (nanos : Bool) (linktype snaplen : UInt32) {j : ℕ} (hj : 11 ≤ j) :
    (seen true nanos linktype snaplen).getD j 0 = 0 ∨
      2 ^ 24 ≤ (seen true nanos linktype snaplen).getD j 0 := by
  have htail : ∀ v ∈ (seen true nanos linktype snaplen).drop 11, v = 0 ∨ 2 ^ 24 ≤ v := by
    rw [seen_eq]
    cases nanos <;> dsimp only [List.drop] <;> decide
  have hdrop : ((seen true nanos linktype snaplen).drop 11)[j - 11]?
      = (seen true nanos linktype snaplen)[j]? := by
    rw [List.getElem?_drop]
    congr 1
    omega
  rw [List.getD_eq_getElem?_getD, ← hdrop]
  cases h : ((seen true nanos linktype snaplen).drop 11)[j - 11]? with
  | none => exact Or.inl rfl
  | some v => exact htail v (List.mem_of_getElem? h)

/-- No block begins behind a word that ends one: the word two further on is no length of a block
that lies in the file and ends in its own length. -/
theorem seen_stuck (swapped nanos : Bool) {linktype snaplen : UInt32} (hlink : linktype.toNat < 2 ^ 16)
    {V : List ℕ} (hV : V = seen swapped nanos linktype snaplen) (i : ℕ)
    (hlast : 4 * i + 8 ≤ pad4 (V.getD i 0)) (hlo : 12 ≤ V.getD (i + 2) 0)
    (hfit : 4 * (i + 1) + pad4 (V.getD (i + 2) 0) ≤ 4 * V.length)
    (hends : V.getD (i + pad4 (V.getD (i + 2) 0) / 4) 0 = V.getD (i + 2) 0) : False := by
  have hlen := length_seen swapped nanos linktype snaplen
  have hnarrow := swap32_narrow hlink
  rw [← hV] at hlen
  have hi : i < 29 := by
    by_contra hout
    have hnone : V[i + 2]? = none := by
      apply List.getElem?_eq_none
      split at hlen
      · omega
      · omega
    rw [List.getD_eq_getElem?_getD, hnone] at hlo
    exact absurd hlo (by decide)
  unfold pad4 at hlast hfit hends
  cases swapped with
  | false =>
    rw [seen_eq] at hV
    cases nanos <;> dsimp only at hV <;> subst hV <;>
      simp only [List.length_cons, List.length_nil] at hfit <;>
      interval_cases i <;>
      simp only [List.getD_cons_zero, List.getD_cons_succ, List.getD_nil] at hlast hlo hfit hends <;>
      omega
  | true =>
    by_cases hsnap : i = 8
    · -- the length would be the snap length, and no word behind it is as small
      subst hsnap
      obtain ⟨snap, hat⟩ : ∃ n, n = V.getD (8 + 2) 0 := ⟨_, rfl⟩
      rw [← hat] at hlo hfit hends
      have htail := seen_tail nanos linktype snaplen (show 11 ≤ 8 + (snap + 3) / 4 * 4 / 4 by omega)
      rw [← hV, hends] at htail
      split at hlen
      · omega
      · omega
    · rw [seen_eq] at hV
      cases nanos <;> dsimp only at hV <;> subst hV <;>
        simp only [List.length_cons, List.length_nil] at hfit <;>
        interval_cases i <;>
        simp only [List.getD_cons_zero, List.getD_cons_succ, List.getD_nil] at hlast hlo hfit hends <;>
        omega

/-- Nor does a section: what would be its byte order mark is none. -/
theorem probe_no_order (swapped nanos : Bool) {linktype snaplen : UInt32}
    (hlink : linktype.toNat < 2 ^ 16) {i : ℕ}
    (h : ((probe_words linktype snaplen nanos)[i + 1]?).map (sees swapped) = some BLOCK_SHB) :
    ((probe_words linktype snaplen nanos)[i + 3]?).bind order_of = none := by
  obtain ⟨V, hV⟩ : ∃ V, V = seen swapped nanos linktype snaplen := ⟨_, rfl⟩
  have hlen := length_seen swapped nanos linktype snaplen
  have hnarrow := swap32_narrow hlink
  rw [← hV] at hlen
  -- What the reader takes for a section header is one of the words seen, and only one has that
  -- value.
  have hshb : V.getD (i + 1) 0 = 168627466 := by
    obtain ⟨v, hv, hsees⟩ := Option.map_eq_some_iff.1 h
    rw [hV, seen, List.getD_eq_getElem?_getD, List.getElem?_map, hv, Option.map_some, hsees]
    rfl
  have hi : i < 30 := by
    by_contra hout
    have hnone : V[i + 1]? = none := by
      apply List.getElem?_eq_none
      split at hlen
      · omega
      · omega
    rw [List.getD_eq_getElem?_getD, hnone] at hshb
    exact absurd hshb (by decide)
  -- Word by word, in both orders and both resolutions: only the snap length can hold it.
  have hsnap : i = 9 := by
    rw [seen_eq] at hV
    cases swapped <;> cases nanos <;> dsimp only at hV <;> subst hV <;>
      interval_cases i <;>
      simp only [List.getD_cons_zero, List.getD_cons_succ, List.getD_nil] at hshb <;>
      omega
  subst hsnap
  -- The octets two words on are not a byte-order mark.
  cases nanos with
  | false =>
    show order_of 6 = none
    decide
  | true =>
    show order_of 9 = none
    decide

section Probe

variable {held : Bytes} {linktype snaplen : UInt32} {nanos swapped : Bool}

/-- Four octets a word. -/
theorem length_flatMap_le32 (words : List UInt32) : (words.flatMap le32).length = 4 * words.length := by
  induction words with
  | nil => rfl
  | cons v words ih =>
    rw [List.flatMap_cons, List.length_append, length_le32, ih, List.length_cons]
    omega

/-- A word read among words written. -/
theorem rd32_words {words : List UInt32} {i : ℕ} {v : UInt32}
    (h : rd32 (held ++ words.flatMap le32) (held.length + 4 * i) swapped = some v) :
    words[i]?.map (sees swapped) = some v := by
  have hin := rd32_in h
  rw [List.length_append, length_flatMap_le32] at hin
  have hi : i < words.length := by omega
  have hread : rd32 (held ++ words.flatMap le32) (held.length + 4 * i) false = some words[i] := by
    refine rd32_word (held ++ (words.take i).flatMap le32) ((words.drop (i + 1)).flatMap le32) ?_ ?_
    · show _ = _ ++ le32 words[i] ++ _
      rw [List.append_assoc, List.append_assoc, ← List.flatMap_cons, ← List.flatMap_append,
        List.getElem_cons_drop, List.take_append_drop]
    · rw [List.length_append, length_flatMap_le32, List.length_take, Nat.min_eq_left (by omega)]
  rw [List.getElem?_eq_getElem hi, Option.map_some]
  cases swapped with
  | false => exact hread.symm.trans h
  | true =>
    rw [rd32_true, hread, Option.map_some] at h
    exact h

/-- A word of the probe as a number. -/
theorem seen_word {i : ℕ} {v : UInt32}
    (h : rd32 (held ++ (probe_words linktype snaplen nanos).flatMap le32) (held.length + 4 * i) swapped
      = some v) : (seen swapped nanos linktype snaplen).getD i 0 = v.toNat := by
  have hword := rd32_words h
  obtain ⟨u, hu, hsees⟩ := Option.map_eq_some_iff.1 hword
  rw [seen, List.getD_eq_getElem?_getD, List.getElem?_map, hu, Option.map_some, hsees]
  rfl

/-- **Behind a block that begins in the old file and ends in what was added the walk stops.** -/
theorem stops_inside {r g g' : Reader} {d : Option ℕ} (hlink : linktype.toNat < 2 ^ 16)
    (hr : Grown held ((probe_words linktype snaplen nanos).flatMap le32) d r g)
    (hstop : r.step = .stop) (hstep : g.step = .skip g' ∨ ∃ rec, g.step = .yield rec g')
    (hlen : held.length % 4 = 0) (haligned : r.off % 4 = 0) (hin : r.off < held.length) :
    g'.step = .stop := by
  -- The grown reader stands inside the appended words, so what it takes for a block ends with one
  -- of them.
  have hbehind := stopped_goes_on hr hstop hstep
  obtain ⟨order, total, hmoves⟩ := step_moves hstep
  obtain ⟨btype, hread⟩ := hmoves.reads
  obtain ⟨declared, -, -, htotal, -, -, htrailing⟩ := read_block_at_iff.1 hread
  have hoff := hmoves.off
  rw [hr.new.off_eq] at hoff
  -- Everything is aligned to four octets, so the block ends on a word of the appended text.
  have hpad : pad4 declared.toNat % 4 = 0 := Nat.mul_mod_left _ 4
  obtain ⟨i, hi⟩ : ∃ i, g'.off = held.length + 4 * (i + 1) :=
    ⟨(g'.off - held.length) / 4 - 1, by omega⟩
  rw [hr.new.buf_eq, hr.new.off_eq, show r.off + total - 4 = held.length + 4 * i by omega] at htrailing
  have hlast := seen_word htrailing
  by_contra hgoes
  -- It goes on from there, by the hypothesis that it never stopped, and reads another block.
  have hnext : ∃ g'', g'.step = .skip g'' ∨ ∃ rec, g'.step = .yield rec g'' := by
    cases h : g'.step with
    | stop => exact absurd h hgoes
    | skip g'' => exact ⟨g'', Or.inl rfl⟩
    | yield rec g'' => exact ⟨g'', Or.inr ⟨rec, rfl⟩⟩
  obtain ⟨g'', hnext⟩ := hnext
  obtain ⟨order', total', hmoves'⟩ := step_moves hnext
  obtain ⟨btype', hread'⟩ := hmoves'.reads
  have hbuf' := hmoves.buf.trans hr.new.buf_eq
  have horder := hmoves'.order
  rw [hbuf', hi, hmoves.swapped] at horder
  -- Read in the same order, the second block is stuck between the lengths seen; read as a section
  -- header, it has no byte-order mark.
  rcases horder with rfl | ⟨hshb, hmagic⟩
  · obtain ⟨declared', -, hdeclared', htotal', hlo', hfit', htrailing'⟩ := read_block_at_iff.1 hread'
    have hpad' : pad4 declared'.toNat % 4 = 0 := Nat.mul_mod_left _ 4
    have hlong := le_pad4 declared'.toNat
    rw [hbuf', hi, show held.length + 4 * (i + 1) + 4 = held.length + 4 * (i + 2) by omega] at hdeclared'
    rw [hbuf', hi, show held.length + 4 * (i + 1) + total' - 4
      = held.length + 4 * (i + pad4 declared'.toNat / 4) by omega] at htrailing'
    rw [hbuf', hi, List.length_append, length_flatMap_le32] at hfit'
    have hsecond := seen_word hdeclared'
    have hends := seen_word htrailing'
    have hsize : (seen order' nanos linktype snaplen).length
        = (probe_words linktype snaplen nanos).length := List.length_map _
    rw [← hsecond] at hlo' hends
    refine seen_stuck order' nanos hlink rfl i ?_ hlo' ?_ hends
    · rw [hlast]
      omega
    · rw [hsize, hsecond]
      omega
  · obtain ⟨raw, hraw, hknown⟩ := Option.bind_eq_some_iff.1 hmagic
    rw [show held.length + 4 * (i + 1) + 8 = held.length + 4 * (i + 3) by omega] at hraw
    have hnone := probe_no_order order nanos hlink (rd32_words hshb)
    have hword := rd32_words hraw
    obtain ⟨u, hu, hsees⟩ := Option.map_eq_some_iff.1 hword
    rw [hu, Option.bind_some] at hnone
    rw [← hsees] at hknown
    exact absurd (hknown.symm.trans hnone) (Option.some_ne_none _)

end Probe

end Wiry.Capture
