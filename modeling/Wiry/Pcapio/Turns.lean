/-
Each turn of Python's walk beside the step of the Rust reader that takes the same block.

The Python walk looks at the same three words of a block as the Rust reader
does, so a turn is determined by what `read_block_at` found: an ordinary block
(`turn_ordinary`) or a section header (`turn_header`). What a turn files it
files inside its own block (`turn_keeps`).
-/
import Wiry.Pcapio.Interfaces

set_option autoImplicit false

namespace Wiry.Pcapio

open Packet Endian Capture Capture.Pcapng

/-! ## Section headers -/

/-- The octets of a word that was read. -/
theorem slice_of_rd32 {buf : Bytes} {o : ℕ} {swapped : Bool} {v : UInt32}
    (h : rd32 buf o swapped = some v) : slice buf o (o + 4) = le32 (sees swapped v) := by
  have hin := rd32_in h
  have hlen : (slice buf o (o + 4)).length = 4 := by
    rw [length_slice hin]
    omega
  unfold rd32 at h
  rw [slice_checked_eq (by omega) hin, Option.map_some] at h
  rw [← Option.some.inj h]
  cases swapped with
  | false => exact (le32_from_le32 hlen).symm
  | true =>
    show _ = le32 (swap32 (swap32 _))
    rw [swap32_swap32]
    exact (le32_from_le32 hlen).symm

theorem sees_header {swapped : Bool} {v : UInt32} : sees swapped v = BLOCK_SHB ↔ v = BLOCK_SHB := by
  have hpalindrome : swap32 BLOCK_SHB = BLOCK_SHB := by decide
  cases swapped with
  | false => exact Iff.rfl
  | true =>
    constructor
    · intro h
      have h' := congrArg swap32 h
      rwa [show sees true v = swap32 v from rfl, swap32_swap32, hpalindrome] at h'
    · rintro rfl
      exact hpalindrome

theorem le32_inj {v u : UInt32} (h : le32 v = le32 u) : v = u := by
  rw [← from_le32_le32 v, h, from_le32_le32]

theorem magic_iff {buf : Bytes} {o : ℕ} {swapped : Bool} {v : UInt32}
    (h : rd32 buf o swapped = some v) : slice buf o (o + 4) = PCAPNG_MAGIC ↔ v = BLOCK_SHB := by
  have hmagic : PCAPNG_MAGIC = le32 BLOCK_SHB := by decide
  rw [slice_of_rd32 h, hmagic, ← sees_header]
  exact ⟨le32_inj, congrArg le32⟩

theorem enter_ordinary {s : Walker} {e : Bool} {t : UInt32} (h : rd32 s.blob s.pos e = some t)
    (ht : t ≠ BLOCK_SHB) : s.enter = some s := by
  unfold Walker.enter
  exact if_neg fun hm => ht ((magic_iff h).1 hm)

/-- At a section header the walk takes its byte order and forgets the interfaces. -/
theorem enter_header {s : Walker} {e swapped : Bool} (h : rd32 s.blob s.pos e = some BLOCK_SHB)
    (horder : (rd32 s.blob (s.pos + 8) false).bind order_of = some swapped) :
    s.enter = some { s with endian := swapped, ifaces := [] } := by
  obtain ⟨raw, hraw, hknown⟩ := Option.bind_eq_some_iff.1 horder
  have hbom := slice_of_rd32 hraw
  unfold Walker.enter
  rw [if_pos ((magic_iff h).2 rfl)]
  dsimp only
  rw [hbom]
  unfold order_of at hknown
  by_cases hplain : raw = BYTE_ORDER_MAGIC
  · rw [if_pos hplain] at hknown
    rw [hplain, if_neg (by decide), if_pos (by decide), ← Option.some.inj hknown]
  · rw [if_neg hplain] at hknown
    by_cases hother : swap32 raw = BYTE_ORDER_MAGIC
    · rw [if_pos hother] at hknown
      have hraw' : raw = swap32 BYTE_ORDER_MAGIC := by rw [← hother, swap32_swap32]
      rw [hraw', if_pos (by decide), ← Option.some.inj hknown]
    · rw [if_neg hother] at hknown
      cases hknown

/-! ## Turns -/

/-- Keeping an entry moves nothing. -/
theorem Walker.keep_frame (s : Walker) (k : ℕ) (e : Option Metadata) :
    (s.keep k e).blob = s.blob ∧ (s.keep k e).pos = s.pos ∧ (s.keep k e).endian = s.endian ∧
      (s.keep k e).ifaces = s.ifaces := by
  cases e with
  | none => exact ⟨rfl, rfl, rfl, rfl⟩
  | some e => exact ⟨rfl, rfl, rfl, rfl⟩

/-- A block is read where it stands, in the byte order of its section. -/
theorem Walker.block_frame (s : Walker) (btype : UInt32) (body : Bytes) :
    (s.block btype body).blob = s.blob ∧ (s.block btype body).pos = s.pos ∧
      (s.block btype body).endian = s.endian ∧
      (s.block btype body).ifaces
        = if btype = BLOCK_IDB then s.ifaces ++ (idb s.endian body).toList else s.ifaces := by
  unfold Walker.block
  by_cases hidb : btype = BLOCK_IDB
  · rw [if_pos hidb, if_pos hidb]
    exact ⟨rfl, rfl, rfl, rfl⟩
  · rw [if_neg hidb, if_neg hidb]
    split
    · exact Walker.keep_frame s _ _
    · split
      · exact Walker.keep_frame s _ _
      · split
        · exact ⟨rfl, rfl, rfl, rfl⟩
        · exact ⟨rfl, rfl, rfl, rfl⟩

/-- Any other block is taken with its body, and the walk stands behind it. -/
theorem turn_ordinary {s : Walker} {end_ total : ℕ} {btype : UInt32} (hend : end_ ≤ s.blob.length)
    (hread : read_block_at s.blob s.endian end_ s.pos = some (btype, total)) (hne : btype ≠ BLOCK_SHB) :
    s.turn = some { s.block btype (body_at s.blob s.pos total) with pos := s.pos + total } := by
  obtain ⟨declared, htype, hdeclared, htotal, hlo, hfit, htrailing⟩ := read_block_at_iff.1 hread
  have hpad := le_pad4 declared.toNat
  unfold Walker.turn
  rw [if_pos (by omega), enter_ordinary htype hne]
  dsimp only
  rw [htype, hdeclared]
  dsimp only
  rw [← htotal, if_neg]
  · rfl
  · rw [not_or, not_or, not_not]
    exact ⟨by omega, by omega, htrailing⟩

/-- A section header is passed over in the order it states. -/
theorem turn_header {s : Walker} {e swapped : Bool} {total : ℕ} {btype : UInt32}
    (htype : rd32 s.blob s.pos e = some BLOCK_SHB)
    (horder : (rd32 s.blob (s.pos + 8) false).bind order_of = some swapped)
    (hread : read_block_at s.blob swapped s.blob.length s.pos = some (btype, total)) :
    s.turn = some { s with endian := swapped, ifaces := [], pos := s.pos + total } := by
  obtain ⟨declared, htype', hdeclared, htotal, hlo, hfit, htrailing⟩ := read_block_at_iff.1 hread
  have hpad := le_pad4 declared.toNat
  have hshb : btype = BLOCK_SHB := (magic_iff htype').1 ((magic_iff htype).2 rfl)
  unfold Walker.turn
  rw [if_pos (by omega), enter_header htype horder]
  dsimp only
  rw [htype', hdeclared]
  dsimp only
  rw [← htotal, if_neg]
  · rw [hshb]
    rfl
  · rw [not_or, not_or, not_not]
    exact ⟨by omega, by omega, htrailing⟩

/-- Entering a section moves nothing and keeps the metadata. -/
theorem enter_frame {s t : Walker} (h : s.enter = some t) : t.pos = s.pos ∧ t.metas = s.metas := by
  unfold Walker.enter at h
  split at h
  · dsimp only at h
    split at h
    · cases h
      exact ⟨rfl, rfl⟩
    · split at h
      · cases h
        exact ⟨rfl, rfl⟩
      · cases h
  · cases h
    exact ⟨rfl, rfl⟩

/-- And touches no entry below it. -/
theorem keep_below (t : Walker) {k i : ℕ} (e : Option Metadata) (hi : i < k) :
    (t.keep k e).metas i = t.metas i := by
  cases e with
  | none => rfl
  | some e => exact if_neg (Nat.ne_of_lt hi)

/-- What is kept lies behind the block's own head, so an entry further up stays. -/
theorem turn_keeps {s s' : Walker} (h : s.turn = some s') :
    s.pos + 12 ≤ s'.pos ∧ ∀ k, k < s.pos + 12 → s'.metas k = s.metas k := by
  -- A block takes twelve octets at least, and an entry is filed inside its own block.
  unfold Walker.turn at h
  split at h
  · split at h
    · cases h
    · rename_i t ht
      obtain ⟨hpos, hmetas⟩ := enter_frame ht
      split at h
      · rename_i btype declared htype hdeclared
        dsimp only at h
        split at h
        · cases h
        · rename_i hbound
          have hpad := le_pad4 declared.toNat
          rw [← Option.some.inj h]
          refine ⟨?_, fun k hk => ?_⟩
          · dsimp only
            omega
          · dsimp only
            rw [← hmetas]
            unfold Walker.block
            split
            · rfl
            · split
              · exact keep_below t _ (by omega)
              · split
                · exact keep_below t _ (by omega)
                · split
                  · rfl
                  · rfl
      · cases h
  · cases h

theorem walk_keeps (n : ℕ) (s : Walker) {k : ℕ} (hk : k < s.pos + 12) :
    (s.walk n).metas k = s.metas k := by
  induction n generalizing s with
  | zero => rfl
  | succ n ih =>
    rw [Walker.walk]
    split
    · rfl
    · rename_i s' hturn
      obtain ⟨hpos, hsame⟩ := turn_keeps hturn
      rw [ih s' (by omega), hsame k hk]

end Wiry.Pcapio
