/-
`fragment_v6` against `inspect`: the walk that finds where the Fragment header
goes and the walk that finds it again take the same steps along the chain.

`Splits6` collects what the guards of the splitter leave. The Fragment header
is put behind the unfragmentable part of the chain, and the reader that looks
for it passes the same headers in the same order.
-/
import Wiry.Frag.Cuts

set_option autoImplicit false

namespace Wiry.Frag

open Wiry.Packet

/-! ## Steps along a chain -/

/-- `n` extension headers lead from one position of a chain to another, a position being the offset
of a header and of the octet that names it. -/
inductive Steps (buf : Bytes) : ℕ → ℕ × ℕ → ℕ × ℕ → Prop
  | here (p : ℕ × ℕ) : Steps buf 0 p p
  | next {n at_ nh_at : ℕ} {nh l : UInt8} {q : ℕ × ℕ} (hnh : buf[nh_at]? = some nh)
      (hext : is_ext nh = true) (hl : buf[at_ + 1]? = some l)
      (h : Steps buf n (at_ + (l.toNat + 1) * 8, at_) q) : Steps buf (n + 1) (at_, nh_at) q

namespace Steps

variable {buf : Bytes} {n at_ nh_at : ℕ} {q : ℕ × ℕ}

/-- The octet that names a header is the first of the header before it. -/
theorem bounds (h : Steps buf n (at_, nh_at) q) :
    q = (at_, nh_at) ∨ q.2 + 8 ≤ q.1 ∧ (q.2 = at_ ∨ at_ + 8 ≤ q.2) := by
  generalize hp : (at_, nh_at) = p at h
  induction h generalizing at_ nh_at with
  | here p => exact .inl rfl
  | @next n at_' nh_at' nh l q hnh hext hl h ih =>
    obtain ⟨rfl, rfl⟩ := Prod.mk.inj hp
    right
    rcases ih rfl with heq | ⟨hle, heq | hge⟩
    · rw [heq]
      dsimp only
      omega
    · omega
    · omega

/-- Where the steps of one buffer lead in another that is alike up to there, whose octet at the end
names a Fragment header. -/
theorem find (h : Steps buf n (at_, nh_at) q) {F : Bytes} {end_ left lo : ℕ} (hleft : n < left)
    (hlo : lo ≤ nh_at) (hat : nh_at < at_)
    (hsame : ∀ j, lo ≤ j → j < q.1 → j ≠ q.2 → F[j]? = buf[j]?)
    (hfrag : F[q.2]? = some EXT_FRAGMENT) (hend : q.1 ≤ end_) :
    (chain_from F end_ left at_ nh_at).find? (fun l => l.nh = EXT_FRAGMENT) =
      some ⟨EXT_FRAGMENT, q.1, q.2⟩ := by
  generalize hp : (at_, nh_at) = p at h
  induction h generalizing at_ nh_at left with
  | here p =>
    obtain rfl := hp
    obtain ⟨left, rfl⟩ : ∃ m, left = m + 1 := ⟨left - 1, by omega⟩
    rw [chain_from, hfrag, List.find?_cons_of_pos (by simp)]
  | @next n at_' nh_at' nh l q hnh hext hl h ih =>
    obtain ⟨rfl, rfl⟩ := Prod.mk.inj hp
    obtain ⟨left, rfl⟩ : ∃ m, left = m + 1 := ⟨left - 1, by omega⟩
    -- the next header starts no later than the last one does
    have hbounds := h.bounds
    have hq : at_ + (l.toNat + 1) * 8 ≤ q.1 ∧ at_ ≤ q.2 ∧ at_ + 1 ≠ q.2 := by
      rcases hbounds with heq | ⟨hle, heq | hge⟩
      · rw [heq]
        dsimp only
        omega
      · omega
      · omega
    have hnh' : F[nh_at]? = some nh := by rw [hsame _ hlo (by omega) (by omega), hnh]
    have hl' : F[at_ + 1]? = some l := by rw [hsame _ (by omega) (by omega) hq.2.2, hl]
    have hne : nh ≠ EXT_FRAGMENT := by
      rintro rfl
      exact absurd hext (by decide)
    rw [chain_from, hnh']
    dsimp only
    rw [hl', List.find?_cons_of_neg (by simpa using hne)]
    dsimp only
    rw [if_pos ⟨hext, by omega⟩]
    exact ih (by omega) (by omega) (by omega) hsame hfrag hend rfl

end Steps

/-- What `v6_unfragmentable` finds is where it started or some steps on, fewer than the walk takes. -/
theorem unfragmentable_steps (buf : Bytes) (end_ left at_ nh_at : ℕ) (fixed : ℕ × ℕ)
    (prev : Option UInt8) (depth : ℕ) {a b d : ℕ}
    (h : unfragmentable_loop (chain_from buf end_ left at_ nh_at) fixed prev depth = (a, b, d)) :
    (a, b) = fixed ∨ ∃ n, n < left ∧ Steps buf n (at_, nh_at) (a, b) := by
  induction left generalizing at_ nh_at fixed prev depth with
  | zero =>
    rw [chain_from, unfragmentable_loop] at h
    left
    rw [← (Prod.mk.inj h).1, ← (Prod.mk.inj (Prod.mk.inj h).2).1]
  | succ left ih =>
    rw [chain_from] at h
    cases hnh : buf[nh_at]? with
    | none =>
      rw [hnh] at h
      dsimp only at h
      rw [unfragmentable_loop] at h
      left
      rw [← (Prod.mk.inj h).1, ← (Prod.mk.inj (Prod.mk.inj h).2).1]
    | some nh =>
      rw [hnh] at h
      dsimp only at h
      rw [unfragmentable_loop] at h
      dsimp only at h
      -- the position this turn may fix
      obtain ⟨fixed', hfixed'⟩ : ∃ f, f = if prev.any (· ≠ EXT_DEST_OPTS) then (at_, nh_at) else fixed :=
        ⟨_, rfl⟩
      rw [← hfixed'] at h
      have hhere : (a, b) = fixed' →
          (a, b) = fixed ∨ ∃ n, n < left + 1 ∧ Steps buf n (at_, nh_at) (a, b) := by
        rintro heq
        rw [heq, hfixed']
        split
        · exact .inr ⟨0, Nat.succ_pos left, .here _⟩
        · exact .inl rfl
      have hstop : ∀ d' : ℕ, (fixed'.1, fixed'.2, d') = (a, b, d) → (a, b) = fixed' := by
        intro d' heq
        rw [← (Prod.mk.inj heq).1, ← (Prod.mk.inj (Prod.mk.inj heq).2).1]
      by_cases hext : is_ext nh = true
      · rw [if_pos hext] at h
        cases hl : buf[at_ + 1]? with
        | none =>
          rw [hl] at h
          exact hhere (hstop _ h)
        | some l =>
          rw [hl] at h
          dsimp only at h
          by_cases hin : at_ + (l.toNat + 1) * 8 ≤ end_
          · rw [if_pos ⟨hext, hin⟩] at h
            rcases ih _ _ _ _ _ h with heq | ⟨n, hn, hsteps⟩
            · exact hhere heq
            · exact .inr ⟨n + 1, by omega, .next hnh hext hl hsteps⟩
          · rw [if_neg fun hboth => hin hboth.2] at h
            exact hhere (hstop _ h)
      · rw [if_neg hext] at h
        exact hhere (hstop _ h)

/-! ## What is split -/

/-- What `split_v6` has seen to. -/
structure Splits6 (buf : Bytes) (off : ℕ) (s : Split6) : Prop where
  extent : v6_end buf off = some s.end_
  walk : ∃ n, n < MAX_EXT ∧ Steps buf n (off + 40, off + 6) (s.fixed, s.nh_at)
  fixed_lt : s.fixed < s.end_
  unit_pos : 8 ≤ s.unit
  unit_dvd : 8 ∣ s.unit
  unit_le : s.fixed - (off + 40) + 8 + s.unit ≤ MAX_DATAGRAM
  unit_lt : s.unit < (payload_v6 buf s).length
  offset_le : ((payload_v6 buf s).length - 1) / 8 ≤ 0x1fff

/-- What the splitter's guards leave, for IPv6. -/
theorem split_v6_eq_some {buf : Bytes} {off fragsize : ℕ} {s : Split6}
    (h : split_v6 buf off fragsize = some s) : Splits6 buf off s := by
  -- Guard by guard: the extent, the chain, the unit.
  unfold split_v6 at h
  cases hext : v6_end buf off with
  | none => simp [hext] at h
  | some end_ =>
    rw [hext] at h
    dsimp only at h
    split at h
    · exact absurd h nofun
    · obtain ⟨⟨fixed, nh_at, depth⟩, hwalk⟩ : ∃ u, u = v6_unfragmentable buf off end_ := ⟨_, rfl⟩
      rw [← hwalk] at h
      dsimp only at h
      split at h
      · exact absurd h nofun
      · rename_i hguard
        split at h
        · exact absurd h nofun
        · rename_i hunit
          split at h
          · exact absurd h nofun
          · rename_i hoff
            obtain rfl := Option.some.inj h
            have hdvd : 8 ∣ min (unit_of fragsize)
                ((MAX_DATAGRAM - (fixed - (off + 40) + 8)) / 8 * 8) := by
              unfold unit_of
              omega
            refine ⟨hext, ?_, ?_, ?_, hdvd, ?_, ?_, ?_⟩
            · rcases unfragmentable_steps buf end_ _ _ _ _ _ _ hwalk.symm with heq | hsteps
              · dsimp only
                rw [heq]
                exact ⟨0, by decide, .here _⟩
              · exact hsteps
            · dsimp only
              omega
            · dsimp only
              omega
            · dsimp only
              omega
            · unfold payload_v6
              dsimp only
              omega
            · unfold payload_v6
              dsimp only
              omega

/-! ## Offset and flag -/

/-- The word of a Fragment header. -/
def fragment_word6 (n : ℕ) (mf : Bool) : UInt16 :=
  (UInt16.ofNat n <<< 3) ||| (if mf then 1 else 0)

/-- The fragment word is the offset in octets and the bit below it. -/
theorem toNat_fragment_word6 {n : ℕ} (hn : n ≤ 0x1fff) (mf : Bool) :
    (fragment_word6 n mf).toNat = n * 8 + mf.toNat := by
  have hbit : ((if mf then (1 : UInt16) else 0)).toNat = mf.toNat := by
    cases mf with
    | true => rfl
    | false => rfl
  have hshift : (UInt16.ofNat n <<< 3).toNat = n <<< 3 := by
    rw [UInt16.toNat_shiftLeft, UInt16.toNat_ofNat']
    show (n % 2 ^ 16) <<< 3 % 2 ^ 16 = n <<< 3
    rw [Nat.shiftLeft_eq, Nat.shiftLeft_eq]
    omega
  have hlt : mf.toNat < 2 ^ 3 := Nat.lt_of_le_of_lt (Bool.toNat_le mf) (by decide)
  unfold fragment_word6
  rw [UInt16.toNat_or, hbit, hshift, ← Nat.shiftLeft_add_eq_or_of_lt hlt, Nat.shiftLeft_eq]

theorem offset_fragment_word6 {n : ℕ} (hn : n ≤ 0x1fff) (mf : Bool) :
    (fragment_word6 n mf >>> 3).toNat = n := by
  have hword := toNat_fragment_word6 hn mf
  have hlt := Bool.toNat_le mf
  rw [UInt16.toNat_shiftRight]
  show (fragment_word6 n mf).toNat >>> 3 = n
  rw [Nat.shiftRight_eq_div_pow]
  omega

/-- The lowest bit is set exactly when more fragments follow. -/
theorem more_fragment_word6 {n : ℕ} (hn : n ≤ 0x1fff) (mf : Bool) :
    fragment_word6 n mf &&& 1 ≠ 0 ↔ mf = true := by
  have hword := toNat_fragment_word6 hn mf
  have hbit : (fragment_word6 n mf &&& 1).toNat = (fragment_word6 n mf).toNat % 2 ^ 1 :=
    (UInt16.toNat_and _ _).trans (Nat.and_two_pow_sub_one_eq_mod _ 1)
  have hmf : (fragment_word6 n mf &&& 1).toNat = mf.toNat := by
    have hlt := Bool.toNat_le mf
    omega
  rw [Ne, ← UInt16.toNat_inj, hmf]
  cases mf with
  | true => decide
  | false => decide

/-! ## One fragment -/

section Frame

variable {buf : Bytes} {off : ℕ} {s : Split6} {at_ n : ℕ}

/-- The unfragmentable part of a fragment: the octet past it names the Fragment header, and the
length is the fragment's. -/
def base_v6 (buf : Bytes) (off : ℕ) (s : Split6) (n : ℕ) : Bytes :=
  put (put (buf.take s.fixed) s.nh_at [EXT_FRAGMENT]) (off + 4)
    (octets_of 2 (s.fixed - (off + 40) + 8 + n))

/-- The Fragment header of the piece at `at_`. -/
def fragment_header (buf : Bytes) (off : ℕ) (s : Split6) (at_ n : ℕ) : Bytes :=
  [buf.getD s.nh_at 0, 0] ++
    octets_of 2 (fragment_word6 (at_ / 8) (at_ + n < (payload_v6 buf s).length)).toNat ++
    octets_of 4 (derived_id (slice buf off s.fixed) (payload_v6 buf s)).toNat

theorem length_fragment_header (buf : Bytes) (off : ℕ) (s : Split6) (at_ n : ℕ) :
    (fragment_header buf off s at_ n).length = 8 := by
  unfold fragment_header
  rw [List.length_append, List.length_append, length_octets_of, length_octets_of]
  rfl

/-- The key every fragment of a datagram is found under. -/
def key_v6 (buf : Bytes) (off : ℕ) (s : Split6) : Key :=
  ⟨wide (slice buf (off + 8) (off + 24)), wide (slice buf (off + 24) (off + 40)),
    derived_id (slice buf off s.fixed) (payload_v6 buf s), 0, true⟩

theorem fragment_v6_cases (buf : Bytes) (off fragsize : ℕ) :
    fragment_v6 buf off fragsize = [buf] ∨
      ∃ s, Splits6 buf off s ∧ fragment_v6 buf off fragsize =
        (cuts s.unit (payload_v6 buf s).length).map fun c => frame_v6 buf off s c.1 c.2 := by
  unfold fragment_v6
  cases hsplit : split_v6 buf off fragsize with
  | none => exact .inl rfl
  | some s => exact .inr ⟨s, split_v6_eq_some hsplit, rfl⟩

theorem fragment_eq_v6 {L : Layers} {link : ProtoId} {buf : Bytes} {off : ℕ}
    (hip : ip_layer L buf link = some (.Ipv6, off)) (fragsize : ℕ) :
    fragment L buf link fragsize = fragment_v6 buf off fragsize := by
  unfold fragment
  rw [hip]

namespace Splits6

/-- The chain's landmarks in order: the next-header octet, the end of the unfragmentable part and
the end of the payload. -/
theorem positions (h : Splits6 buf off s) :
    off + 6 ≤ s.nh_at ∧ off + 40 ≤ s.fixed ∧ s.nh_at < s.fixed ∧
      (s.nh_at = off + 6 ∨ off + 40 ≤ s.nh_at) ∧ s.fixed < s.end_ ∧ s.end_ ≤ buf.length := by
  obtain ⟨n, -, hsteps⟩ := h.walk
  have hfixed := h.fixed_lt
  have hend := (v6_end_bounds h.extent).2
  rcases hsteps.bounds with heq | ⟨hle, heq | hge⟩
  · obtain ⟨h1, h2⟩ := Prod.mk.inj heq
    omega
  · dsimp only at hle heq
    omega
  · dsimp only at hle hge
    omega

theorem length_payload (h : Splits6 buf off s) :
    (payload_v6 buf s).length = s.end_ - s.fixed := by
  rw [payload_v6, length_slice (v6_end_bounds h.extent).2]

theorem length_marked (h : Splits6 buf off s) :
    (put (buf.take s.fixed) s.nh_at [EXT_FRAGMENT]).length = s.fixed := by
  obtain ⟨-, -, hlt, -, hfixed, hend⟩ := h.positions
  have htake : (buf.take s.fixed).length = s.fixed := by
    rw [List.length_take]
    omega
  rw [length_put (by rw [htake, List.length_singleton]; omega), htake]

theorem length_base (h : Splits6 buf off s) (n : ℕ) : (base_v6 buf off s n).length = s.fixed := by
  have hmarked := h.length_marked
  obtain ⟨-, hmin, -, -, -, -⟩ := h.positions
  unfold base_v6
  rw [length_put (by rw [length_octets_of]; omega), hmarked]

theorem header_eq (h : Splits6 buf off s) (at_ n : ℕ) :
    header_v6 buf off s at_ n = base_v6 buf off s n ++ fragment_header buf off s at_ n := by
  have hmarked := h.length_marked
  obtain ⟨-, hmin, -, -, -, -⟩ := h.positions
  exact put_append_left _ (by rw [length_octets_of]; omega)

theorem base_getElem? (h : Splits6 buf off s) {j : ℕ} (hj : j < s.fixed) (hne : j ≠ s.nh_at)
    (hlen : ¬ (off + 4 ≤ j ∧ j < off + 6)) : (base_v6 buf off s n)[j]? = buf[j]? := by
  have hmarked := h.length_marked
  obtain ⟨-, hmin, hlt, -, hfixed, hend⟩ := h.positions
  unfold base_v6
  rw [put_getElem? (by rw [length_octets_of]; omega), length_octets_of, if_neg (by omega),
    put_getElem? (by rw [List.length_take, List.length_singleton]; omega), List.length_singleton,
    if_neg (by omega), List.getElem?_take_of_lt hj]

theorem base_named (h : Splits6 buf off s) (n : ℕ) :
    (base_v6 buf off s n)[s.nh_at]? = some EXT_FRAGMENT := by
  have hmarked := h.length_marked
  obtain ⟨hlow, hmin, hlt, -, hfixed, hend⟩ := h.positions
  unfold base_v6
  rw [put_getElem? (by rw [length_octets_of]; omega), length_octets_of, if_neg (by omega),
    put_getElem? (by rw [List.length_take, List.length_singleton]; omega), List.length_singleton,
    if_pos (by omega), Nat.sub_self]
  rfl

/-- A fragment's headers and the piece behind them are all there is to it. -/
theorem frame_extent (h : Splits6 buf off s) {c : ℕ × ℕ} (hc : Inside (payload_v6 buf s) c)
    (hunit : c.2 ≤ s.unit) :
    v6_end (frame_v6 buf off s c.1 c.2) off = some (frame_v6 buf off s c.1 c.2).length ∧
      (frame_v6 buf off s c.1 c.2).length = s.fixed + 8 + c.2 := by
  have hmarked := h.length_marked
  have hbase := h.length_base c.2
  have hfrag := length_fragment_header buf off s c.1 c.2
  have hunitle := h.unit_le
  obtain ⟨-, hmin, -, -, -, -⟩ := h.positions
  have hpiece : (slice (payload_v6 buf s) c.1 (c.1 + c.2)).length = c.2 := by
    rw [length_slice hc.le]
    omega
  have hlen : (frame_v6 buf off s c.1 c.2).length = s.fixed + 8 + c.2 := by
    rw [frame_v6, h.header_eq, List.length_append, List.length_append, hbase, hfrag, hpiece]
  have hmax : MAX_DATAGRAM = 65535 := rfl
  -- the payload length stamped is what stands behind the fixed header
  have hplen : (be16 (frame_v6 buf off s c.1 c.2) (off + 4)).toNat =
      s.fixed - (off + 40) + 8 + c.2 := by
    rw [frame_v6, h.header_eq, List.append_assoc, be16_append_left _ (by omega), base_v6,
      be16_put_octets (by omega) (by omega)]
  refine ⟨v6_end_eq_some_iff.2 ⟨by omega, ?_⟩, hlen⟩
  rw [hplen, if_pos ⟨by omega, by omega⟩]
  omega

/-- The walk finds the Fragment header where the split put it. -/
theorem frag_header (h : Splits6 buf off s) {c : ℕ × ℕ} (hlen : s.fixed + 8 ≤
    (frame_v6 buf off s c.1 c.2).length) :
    v6_frag_header (frame_v6 buf off s c.1 c.2) off (frame_v6 buf off s c.1 c.2).length =
      some (s.fixed, s.nh_at) := by
  have hbase := h.length_base c.2
  obtain ⟨hlow, hmin, hlt, -, -, -⟩ := h.positions
  obtain ⟨n, hn, hsteps⟩ := h.walk
  have hget : ∀ j, j < s.fixed →
      (frame_v6 buf off s c.1 c.2)[j]? = (base_v6 buf off s c.2)[j]? := by
    intro j hj
    rw [frame_v6, h.header_eq, List.append_assoc, List.getElem?_append_left (by omega)]
  have hfind := hsteps.find (F := frame_v6 buf off s c.1 c.2) hn (le_refl (off + 6)) (by omega)
    (fun j hlo hhi hne => by
      rw [hget j hhi]
      exact h.base_getElem? hhi hne (by omega))
    (by rw [hget _ hlt]; exact h.base_named c.2)
    (show s.fixed ≤ (frame_v6 buf off s c.1 c.2).length by omega)
  unfold v6_frag_header ext_chain
  rw [hfind]
  simp [hlen]

/-- **Each fragment carries its piece**, under the datagram's own key. -/
theorem part (h : Splits6 buf off s) {L : Layers} {link : ProtoId} {c : ℕ × ℕ}
    (hc : c ∈ cuts s.unit (payload_v6 buf s).length)
    (hip : ip_layer L (frame_v6 buf off s c.1 c.2) link = some (.Ipv6, off)) :
    ∃ f, Part L link (key_v6 buf off s)
      ⟨put (buf.take s.fixed) (off + 4) (octets_of 2 (s.fixed - (off + 40) + 8 + s.unit)), off, true⟩
      (payload_v6 buf s) (frame_v6 buf off s c.1 c.2) c f := by
  have hpos : 0 < s.unit := Nat.lt_of_lt_of_le (by decide) h.unit_pos
  have hinside := (cuts_cut hpos (payload_v6 buf s)).inside c hc
  have hdvd := dvd_of_mem_cuts hpos h.unit_dvd hc
  obtain ⟨-, hstart, hsize, -⟩ := mem_cuts_from hpos hc
  have hoffset := h.offset_le
  have hunitlt := h.unit_lt
  have hbase := h.length_base c.2
  have hfrag := length_fragment_header buf off s c.1 c.2
  obtain ⟨hextent, hlen⟩ := h.frame_extent hinside (by omega)
  obtain ⟨hlow, hmin, hlt, hnamed, hfixed, hend⟩ := h.positions
  have hframe : frame_v6 buf off s c.1 c.2 = base_v6 buf off s c.2 ++
      (fragment_header buf off s c.1 c.2 ++ slice (payload_v6 buf s) c.1 (c.1 + c.2)) := by
    rw [frame_v6, h.header_eq, List.append_assoc]
  have hfound : inspect L (frame_v6 buf off s c.1 c.2) link =
      inspect_v6 (frame_v6 buf off s c.1 c.2) off := by
    unfold inspect
    rw [hip]
  unfold inspect_v6 at hfound
  rw [hextent] at hfound
  dsimp only at hfound
  rw [h.frag_header (by omega)] at hfound
  dsimp only at hfound
  -- the Fragment header read back
  have hword : be16 (frame_v6 buf off s c.1 c.2) (s.fixed + 2) =
      fragment_word6 (c.1 / 8) (c.1 + c.2 < (payload_v6 buf s).length) := by
    rw [hframe, be16_append_right _ hbase.symm]
    exact be16_octets _ (octets_of 4 (derived_id (slice buf off s.fixed) (payload_v6 buf s)).toNat ++
      slice (payload_v6 buf s) c.1 (c.1 + c.2))
  have hid : be32 (frame_v6 buf off s c.1 c.2) (s.fixed + 4) =
      derived_id (slice buf off s.fixed) (payload_v6 buf s) := by
    rw [hframe, be32_append_right _ hbase.symm]
    exact be32_octets _ (slice (payload_v6 buf s) c.1 (c.1 + c.2))
  have hnext : (frame_v6 buf off s c.1 c.2).getD s.fixed 0 = buf.getD s.nh_at 0 := by
    rw [hframe, List.getD_eq_getElem?_getD, List.getElem?_append_right (by omega), hbase,
      Nat.sub_self]
    rfl
  have haddr : ∀ a b, off + 8 ≤ a → b ≤ off + 40 →
      slice (frame_v6 buf off s c.1 c.2) a b = slice buf a b := by
    intro a b ha hb
    apply slice_congr
    intro j hlo hhi
    rw [hframe, List.getElem?_append_left (by omega)]
    exact h.base_getElem? (by omega) (by omega) (by omega)
  have hat : (fragment_word6 (c.1 / 8) (c.1 + c.2 < (payload_v6 buf s).length) >>> 3).toNat * 8 =
      c.1 := by
    rw [offset_fragment_word6 (by omega)]
    omega
  rw [hword, hid, hnext, haddr _ _ (by omega) (by omega), haddr _ _ (by omega) (by omega),
    hat] at hfound
  refine ⟨_, hfound, rfl, rfl, ?_, ?_, ?_⟩
  · have hpiece : (slice (payload_v6 buf s) c.1 (c.1 + c.2)).length = c.2 := by
      rw [length_slice hinside.le]
      omega
    rw [Found.data]
    dsimp only
    rw [hlen, frame_v6, h.header_eq, slice_append_right _ (by rw [List.length_append]; omega),
      List.take_of_length_le (by omega)]
  · dsimp only
    rw [decide_eq_decide, more_fragment_word6 (by omega)]
    exact decide_eq_true_iff
  · dsimp only
    by_cases hc0 : c.1 = 0
    · rw [if_pos hc0, if_pos hc0]
      have hcut := cut_zero hpos hunitlt hc hc0
      have hmarked := h.length_marked
      have htake : (buf.take s.fixed).length = s.fixed := by
        rw [List.length_take]
        omega
      have hself : put (buf.take s.fixed) s.nh_at [buf.getD s.nh_at 0] = buf.take s.fixed := by
        apply put_self
        · rw [htake, List.length_singleton]
          omega
        · intro n hn
          obtain rfl : n = 0 := by simpa using hn
          rw [Nat.add_zero, List.getElem?_take_of_lt hlt, getElem?_eq_getD (show s.nh_at < buf.length by omega)]
          rfl
      have hone : s.nh_at + [EXT_FRAGMENT].length ≤ (buf.take s.fixed).length := by
        rw [htake, List.length_singleton]
        omega
      -- the length is written apart from the octet that names the next header
      rw [hframe, List.take_append_of_le_length (by omega),
        List.take_of_length_le (by omega), base_v6,
        put_comm (by rw [length_octets_of]; omega) (by rw [hmarked, List.length_singleton]; omega)
          (by rw [length_octets_of, List.length_singleton]; omega),
        put_put hone (show [EXT_FRAGMENT].length = [buf.getD s.nh_at 0].length from rfl), hself,
        hcut]
    · rw [if_neg hc0, if_neg hc0]

end Splits6

end Frame

/-! ## The datagram put back -/

/-- The datagram `assemble` makes of the pieces of a split. -/
def whole_v6 (buf : Bytes) (off : ℕ) (s : Split6) : Bytes :=
  put (buf.take s.fixed) (off + 4)
    (octets_of 2 (s.fixed - (off + 40) + (payload_v6 buf s).length)) ++ payload_v6 buf s

namespace Splits6

variable {buf : Bytes} {off : ℕ} {s : Split6}

theorem length_fixed (h : Splits6 buf off s) : (buf.take s.fixed).length = s.fixed := by
  obtain ⟨-, -, -, -, hfixed, hend⟩ := h.positions
  rw [List.length_take]
  omega

/-- A group with the head and the whole payload assembles to the original datagram without its
fragment header. -/
theorem assemble (h : Splits6 buf off s) {g : Group}
    (hhead : g.head = some ⟨put (buf.take s.fixed) (off + 4)
      (octets_of 2 (s.fixed - (off + 40) + 8 + s.unit)), off, true⟩)
    (hdata : g.data = payload_v6 buf s) :
    g.assemble = if s.fixed - (off + 40) + (payload_v6 buf s).length > MAX_DATAGRAM then none
      else some (whole_v6 buf off s) := by
  have htake := h.length_fixed
  obtain ⟨-, hmin, -, -, -, -⟩ := h.positions
  have htwo : off + 4 + 2 ≤ (buf.take s.fixed).length := by omega
  have hlen : (put (buf.take s.fixed) (off + 4)
      (octets_of 2 (s.fixed - (off + 40) + 8 + s.unit))).length = s.fixed := by
    rw [length_put (by rw [length_octets_of]; exact htwo), htake]
  unfold Group.assemble
  rw [hhead, hdata]
  dsimp only
  rw [hlen, if_pos hmin, put_put (by rw [length_octets_of]; exact htwo)
    (by rw [length_octets_of, length_octets_of])]
  rfl

/-- The datagram put back says of itself what it holds. -/
theorem whole_extent (h : Splits6 buf off s)
    (hlen : s.fixed - (off + 40) + (payload_v6 buf s).length ≤ MAX_DATAGRAM) :
    v6_end (whole_v6 buf off s) off = some (whole_v6 buf off s).length ∧
      slice (whole_v6 buf off s) (off + 40) (whole_v6 buf off s).length =
        slice buf (off + 40) s.end_ := by
  -- Only the payload length is rewritten, and it is the datagram's.
  have htake := h.length_fixed
  have hpayload := h.length_payload
  have hunit := h.unit_lt
  have hmax : MAX_DATAGRAM = 65535 := rfl
  obtain ⟨-, hmin, -, -, hfixed, hend⟩ := h.positions
  have htwo : off + 4 + 2 ≤ (buf.take s.fixed).length := by omega
  have hput : (put (buf.take s.fixed) (off + 4)
      (octets_of 2 (s.fixed - (off + 40) + (payload_v6 buf s).length))).length = s.fixed := by
    rw [length_put (by rw [length_octets_of]; exact htwo), htake]
  have hwhole : (whole_v6 buf off s).length = s.end_ := by
    rw [whole_v6, List.length_append, hput]
    omega
  have hplen : (be16 (whole_v6 buf off s) (off + 4)).toNat =
      s.fixed - (off + 40) + (payload_v6 buf s).length := by
    rw [whole_v6, be16_append_left _ (by omega), be16_put_octets htwo (by omega)]
  constructor
  · rw [v6_end_eq_some_iff, hplen, if_pos ⟨by omega, by omega⟩]
    omega
  · rw [hwhole]
    apply slice_congr
    -- Behind it the octets are those of the unfragmentable part and then the payload's.
    intro j hlo hhi
    by_cases hj : j < s.fixed
    · rw [whole_v6, List.getElem?_append_left (by omega),
        put_getElem? (by rw [length_octets_of]; exact htwo), length_octets_of, if_neg (by omega),
        List.getElem?_take_of_lt hj]
    · rw [whole_v6, List.getElem?_append_right (by omega), hput, payload_v6, slice_getElem?,
        if_pos (by omega)]
      congr 1
      omega

/-- A Payload Length that says what it should is put back as it was. -/
theorem whole_eq (h : Splits6 buf off s) (hplen : off + 40 + (be16 buf (off + 4)).toNat = s.end_) :
    whole_v6 buf off s = buf.take s.end_ := by
  have htake := h.length_fixed
  have hpayload := h.length_payload
  obtain ⟨-, hmin, -, -, hfixed, hend⟩ := h.positions
  have hlen : s.fixed - (off + 40) + (payload_v6 buf s).length =
      (be16 (buf.take s.fixed) (off + 4)).toNat := by
    rw [be16_take _ (by omega)]
    omega
  rw [whole_v6, hlen, put_be16 (by omega)]
  exact take_append_slice buf (Nat.le_of_lt hfixed)

end Splits6

end Wiry.Frag
