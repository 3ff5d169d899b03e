/-
An interface block as either side reads it.

Both walk the options alike; what they make of an `if_tsresol` differs where it is not one octet,
or tells more ticks a second than 64 bits hold.
-/
import Wiry.Capture.CutOff
import Wiry.Pcapio.Walk

set_option autoImplicit false

namespace Wiry.Pcapio

open Packet Endian Capture Capture.Pcapng

/-- The values of the `if_tsresol` options of a block, from `o` on. -/
def resolutions (swapped : Bool) (options : Bytes) : ℕ → ℕ → List Bytes
  | 0, _ => []
  | n + 1, o =>
    if o + 4 ≤ options.length then
      match rd16 options o swapped, rd16 options (o + 2) swapped with
      | some code, some len =>
        if code = OPT_END ∨ o + 4 + len.toNat > options.length then []
        else
          (if code = OPT_IF_TSRESOL then [slice options (o + 4) (o + 4 + len.toNat)] else []) ++
            resolutions swapped options n (o + 4 + pad4 len.toNat)
      | _, _ => []
    else []

/-- A resolution both sides can tell: one octet, its ticks within 64 bits. -/
def Plain (value : Bytes) : Prop := ∃ v, value = [v] ∧ ticks_per_second v < 2 ^ 64

/-- Below 2^64 the two readings of a resolution agree. -/
theorem decode_plain {v : UInt8} (h : ticks_per_second v < 2 ^ 64) :
    decode_tsresol v = ticks_per_second v := by
  have hlow : ∀ n : Fin 256, UInt8.ofNat n &&& 128 = 0 → UInt8.ofNat n &&& 127 = UInt8.ofNat n := by
    decide +kernel
  have hoctet : UInt8.ofNat v.toNat = v := UInt8.ofNat_toNat
  have hv : v &&& 128 = 0 → v &&& 127 = v := by
    have hn := hlow ⟨v.toNat, v.toNat_lt⟩
    rwa [hoctet] at hn
  have hsame : (if v &&& 0x80 ≠ 0 then 2 ^ (v &&& 0x7f).toNat else 10 ^ v.toNat)
      = ticks_per_second v := by
    unfold ticks_per_second
    by_cases hbit : v &&& 0x80 = 0
    · rw [if_neg (not_not.2 hbit), if_neg (not_not.2 hbit), hv hbit]
    · rw [if_pos hbit, if_pos hbit]
  unfold decode_tsresol
  dsimp only
  rw [hsame, if_pos h]

theorem set_tsresol (opts : Options) (code : UInt16) (value : Bytes) :
    (opts.set code value) OPT_IF_TSRESOL = if code = OPT_IF_TSRESOL then [value]
      else opts OPT_IF_TSRESOL := by
  unfold Options.set
  by_cases h : OPT_IF_TSRESOL = code
  · rw [if_pos h, if_pos h.symm, if_neg]
    rw [← h]
    decide
  · rw [if_neg h, if_neg (Ne.symm h)]

/-- **The two option loops come to the same resolution**, whatever turns they have left. -/
theorem options_agree (swapped : Bool) (options : Bytes) {n m o t : ℕ} {opts : Options}
    (hn : options.length ≤ o + n) (hm : options.length ≤ o + m)
    (hplain : ∀ value ∈ resolutions swapped options m o, Plain value)
    (h : t = tsresol_of (opts OPT_IF_TSRESOL)) :
    idb_options options swapped options.length n o t
      = tsresol_of (read_options swapped options m o opts OPT_IF_TSRESOL) := by
  induction n generalizing m o t opts with
  | zero =>
    cases m with
    | zero => exact h
    | succ m =>
      rw [read_options, if_neg (by omega)]
      exact h
  | succ n ih =>
    rw [idb_options]
    by_cases hroom : o + 4 ≤ options.length
    · obtain ⟨m, rfl⟩ : ∃ k, m = k + 1 := ⟨m - 1, by omega⟩
      obtain ⟨code, hcode⟩ := rd16_some (show o + 2 ≤ options.length by omega) swapped
      obtain ⟨len, hlen⟩ := rd16_some (show o + 2 + 2 ≤ options.length by omega) swapped
      rw [if_pos hroom, read_options, if_pos hroom, hcode, hlen]
      rw [resolutions, if_pos hroom, hcode, hlen] at hplain
      dsimp only at hplain ⊢
      have hpad := le_pad4 len.toNat
      by_cases hend : code = OPT_END
      · rw [if_pos hend, if_pos hend]
        exact h
      · rw [if_neg hend, if_neg hend]
        by_cases hfit : o + 4 + len.toNat > options.length
        · -- an option that runs past the block ends the one loop, and the other finds no room
          rw [if_pos hfit, if_neg (by omega)]
          cases m with
          | zero => exact h
          | succ m =>
            rw [read_options, if_neg (by omega)]
            exact h
        · rw [if_neg (by rw [not_or]; exact ⟨hend, hfit⟩)] at hplain
          rw [if_neg hfit, if_pos (show o + 4 + len.toNat ≤ options.length by omega)]
          refine ih (by omega) (by omega)
            (fun value hvalue => hplain value (List.mem_append_right _ hvalue)) ?_
          rw [set_tsresol]
          by_cases hres : code = OPT_IF_TSRESOL
          · rw [if_pos hres] at hplain ⊢
            obtain ⟨v, hv, hticks⟩ := hplain _ (List.mem_append_left _ (List.mem_singleton_self _))
            have hone : len.toNat = 1 := by
              have hlength := congrArg List.length hv
              rw [length_slice (by omega)] at hlength
              rw [List.length_singleton] at hlength
              omega
            have hoctet : options[o + 4]? = some v := by
              have hfirst := congrArg (fun l : Bytes => l[0]?) hv
              rw [slice_getElem?, if_pos (by omega)] at hfirst
              exact hfirst
            rw [if_pos ⟨hres, by omega⟩, hv, hoctet, Option.map_some, Option.getD_some,
              decode_plain hticks]
            rfl
          · rw [if_neg (fun hboth => hres hboth.1), if_neg hres]
            exact h
    · rw [if_neg hroom]
      cases m with
      | zero => exact h
      | succ m =>
        rw [read_options, if_neg hroom]
        exact h

/-! ## The body of a block -/

/-- What lies between the two lengths of a block. -/
def body_at (buf : Bytes) (off total : ℕ) : Bytes := slice buf (off + 8) (off + total - 4)

section Body

variable {buf : Bytes} {off total : ℕ}

theorem length_body_at (hin : off + total ≤ buf.length) :
    (body_at buf off total).length = total - 12 := by
  rw [body_at, length_slice (by omega)]
  omega

theorem body_split (hlo : 12 ≤ total) (hin : off + total ≤ buf.length) :
    ∃ pre rest, buf = pre ++ body_at buf off total ++ rest ∧ pre.length = off + 8 := by
  refine ⟨buf.take (off + 8), buf.drop (off + total - 4), ?_, ?_⟩
  · have hcut : buf.take (off + 8) ++ body_at buf off total = buf.take (off + total - 4) := by
      have hparts := List.take_append_drop (off + 8) (buf.take (off + total - 4))
      rw [List.take_take, Nat.min_eq_left (by omega)] at hparts
      exact hparts
    rw [hcut, List.take_append_drop]
  · rw [List.length_take]
    omega

/-- A word of a body is the block's. -/
theorem rd32_body_at (hin : off + total ≤ buf.length) (hlo : 12 ≤ total) {o : ℕ}
    (ho : o + 4 ≤ total - 12) (swapped : Bool) :
    rd32 (body_at buf off total) o swapped = rd32 buf (off + 8 + o) swapped := by
  obtain ⟨pre, rest, hbuf, hpre⟩ := body_split hlo hin
  have hlen := length_body_at hin
  have hwithin := rd32_within pre rest (show o + 4 ≤ (body_at buf off total).length by omega) swapped
  rw [← hbuf, hpre] at hwithin
  exact hwithin.symm

theorem rd16_body_at (hin : off + total ≤ buf.length) (hlo : 12 ≤ total) {o : ℕ}
    (ho : o + 2 ≤ total - 12) (swapped : Bool) :
    rd16 (body_at buf off total) o swapped = rd16 buf (off + 8 + o) swapped := by
  obtain ⟨pre, rest, hbuf, hpre⟩ := body_split hlo hin
  have hlen := length_body_at hin
  have hwithin := rd16_within pre rest (show o + 2 ≤ (body_at buf off total).length by omega) swapped
  rw [← hbuf, hpre] at hwithin
  exact hwithin.symm

/-- An interface block with its fixed fields, and resolutions that both sides can tell. -/
structure Whole (swapped : Bool) (body : Bytes) : Prop where
  fixed : 8 ≤ body.length
  plain : ∀ value ∈ resolutions swapped (body.drop 8) (body.drop 8).length 0, Plain value

/-- **A whole interface block is one interface to both sides.** -/
theorem idb_agrees {swapped : Bool} (hlo : 12 ≤ total) (hin : off + total ≤ buf.length)
    (hwhole : Whole swapped (body_at buf off total)) :
    ∃ i, idb swapped (body_at buf off total) = some i ∧
      i.linktype.toUInt32 = (parse_idb buf swapped off total).linktype ∧
      i.tsresol = (parse_idb buf swapped off total).tsresol := by
  -- Both readers take the link type from the first word and the resolution from the options.
  obtain ⟨body, hbody⟩ : ∃ b, b = body_at buf off total := ⟨_, rfl⟩
  have hlen := length_body_at hin
  have hfixed := hwhole.fixed
  obtain ⟨linktype, hlink⟩ := rd16_some (show 0 + 2 ≤ (body_at buf off total).length by omega) swapped
  obtain ⟨snaplen, hsnap⟩ := rd32_some (show 4 + 4 ≤ (body_at buf off total).length by omega) swapped
  have hlink' : rd16 buf (off + 8) swapped = some linktype := by
    rw [← hlink, rd16_body_at hin hlo (by omega), Nat.add_zero]
  have hread := @options_agree swapped ((body_at buf off total).drop 8) total _ 0 DEFAULT_TSRESOL
    (fun _ => []) (by rw [List.length_drop]; omega) (by omega) hwhole.plain rfl
  -- The options are the body behind its eight fixed octets.
  have hsame : idb_options buf swapped (off + total - 4) total (off + 16) DEFAULT_TSRESOL
      = idb_options ((body_at buf off total).drop 8) swapped ((body_at buf off total).drop 8).length
          total 0 DEFAULT_TSRESOL := by
    obtain ⟨pre, rest, hbuf, hpre⟩ := body_split hlo hin
    rw [← hbody] at hbuf hlen hfixed ⊢
    have hsplit : buf = (pre ++ body.take 8) ++ body.drop 8 ++ rest := by
      rw [List.append_assoc pre, List.take_append_drop]
      exact hbuf
    have hhead : (pre ++ body.take 8).length = off + 16 := by
      rw [List.length_append, List.length_take, hpre]
      omega
    have hend : (pre ++ body.take 8).length + (body.drop 8).length = off + total - 4 := by
      rw [hhead, List.length_drop]
      omega
    have hwithin := idb_options_within (pre ++ body.take 8) (body.drop 8) rest swapped
      (le_refl (body.drop 8).length) total 0 DEFAULT_TSRESOL
    rw [← hsplit, hend, hhead, Nat.add_zero] at hwithin
    exact hwithin
  unfold idb
  rw [hlink, hsnap]
  refine ⟨_, rfl, ?_, ?_⟩
  · unfold parse_idb
    rw [hlink']
    rfl
  · unfold parse_idb
    dsimp only
    rw [hsame, hread]
    rfl

end Body

end Wiry.Pcapio
