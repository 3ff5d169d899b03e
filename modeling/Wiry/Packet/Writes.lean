/-
Field writes of `crates/wiry-core/src/packet.rs` and what they may touch.

`set_uint` hands the layer's header to the bit writer, which never leaves the
field's own bits. `set_bytes` writes octets, from the one the field starts in, as
far as the buffer goes: past the header where the field is declared past it, and
over other fields where it does not start on an octet.
-/
import Wiry.Packet.OwnBits
import Wiry.Packet.Region
import Mathlib.Data.List.Find

set_option autoImplicit false

namespace Wiry.Packet

open Bits

/-! ## Reading a field -/

/-- `FieldValue`, the names of flags left out. -/
inductive FieldValue where
  | Uint (v : ℕ)
  | Ipv4 (b : Bytes)
  | Ipv6 (b : Bytes)
  | Mac (b : Bytes)
  | Flags (bits : ℕ)
  | Bytes (b : Bytes)
deriving DecidableEq, Repr

/-- `fixed_bytes`: zeros where the header ends too soon. -/
def fixed_bytes (n : ℕ) (hdr : Bytes) (f : FieldDesc) : Bytes :=
  let b := f.bit_off / 8
  match slice_checked hdr b (b + n) with
  | some src => if 1 < f.le_len then src.reverse else src
  | none => List.replicate n 0

/-- `field::decode`. -/
def decode (hdr : Bytes) (f : FieldDesc) : FieldValue :=
  match f.kind with
  | .Uint => .Uint (read_uint hdr f)
  | .LeUint => .Uint (read_uint hdr f)
  | .Flags => .Flags (read_uint hdr f)
  | .Ipv4Addr => .Ipv4 (fixed_bytes 4 hdr f)
  | .Ipv6Addr => .Ipv6 (fixed_bytes 16 hdr f)
  | .MacAddr => .Mac (fixed_bytes 6 hdr f)
  | .Bytes =>
    let b := f.bit_off / 8
    let v := (slice_checked hdr b (b + f.bit_len / 8)).getD []
    .Bytes (if 1 < f.le_len then v.reverse else v)
  | .VarBytes => .Bytes (hdr.drop (f.bit_off / 8))

/-- `Packet::get`. -/
def get (R : Registry) (pkt : Packet) (layer : ℕ) (name : String) : Option FieldValue :=
  (pkt.active_field R layer name).map (decode (pkt.header layer))

/-- What a field that holds `v` reads as. -/
def FieldDesc.holding (f : FieldDesc) (v : ℕ) : FieldValue :=
  match f.kind with
  | .Uint => .Uint v
  | .LeUint => .Uint v
  | .Flags => .Flags v
  | .Ipv4Addr => .Ipv4 (octets_of 4 v)
  | .Ipv6Addr => .Ipv6 (octets_of 16 v)
  | .MacAddr => .Mac (octets_of 6 v)
  | .Bytes => .Bytes (octets_of (f.bit_len / 8) v)
  | .VarBytes => .Bytes []

/-- Kinds that are read octet by octet. -/
def FieldKind.octets : FieldKind → Bool
  | .Ipv4Addr | .Ipv6Addr | .MacAddr | .Bytes => true
  | _ => false

/-- What the constructors of a field and the tests of every table give it: an address has its
width, octets are whole, and under a little-endian group they are the group. -/
structure FieldDesc.Shaped (f : FieldDesc) : Prop where
  ipv4 : f.kind = .Ipv4Addr → f.bit_len = 32
  ipv6 : f.kind = .Ipv6Addr → f.bit_len = 128
  mac : f.kind = .MacAddr → f.bit_len = 48
  whole : f.kind.octets → f.bit_len % 8 = 0
  group : f.kind.octets → 2 ≤ f.le_len →
    f.bit_off = f.le_at * 8 ∧ f.bit_len = f.le_len * 8 ∧ f.bit_off < 2 ^ 16

/-- Every bit of the field lies in a header of `n` octets. -/
def FieldDesc.Within (f : FieldDesc) (n : ℕ) : Prop := ∀ k < f.bit_len, f.place k < 8 * n

/-- Octets are what their bits say. -/
theorem octets_of_bits {bs : Bytes} {n v : ℕ} (hlen : bs.length = n)
    (h : ∀ j < 8 * n, bit bs j = v.testBit (8 * n - 1 - j)) : bs = octets_of n v := by
  apply Bits.ext (hlen.trans (length_octets_of n v).symm)
  intro j hj
  rw [hlen] at hj
  rw [h j hj, bit_octets_of hj]

/-- The octets of a field that starts on one, put in the order of a number. -/
theorem octets_read {hdr : Bytes} {f : FieldDesc} {v : ℕ} (hshape : f.bit_len % 8 = 0)
    (hstart : f.bit_off % 8 = 0)
    (hgroup : 2 ≤ f.le_len → f.bit_off = f.le_at * 8 ∧ f.bit_len = f.le_len * 8 ∧ f.bit_off < 2 ^ 16)
    (hheld : f.Held hdr.length)
    (hbits : ∀ k < f.bit_len, bit hdr (f.place k) = v.testBit k) :
    ∃ src, slice_checked hdr (f.bit_off / 8) (f.bit_off / 8 + f.bit_len / 8) = some src ∧
      (if 1 < f.le_len then src.reverse else src) = octets_of (f.bit_len / 8) v := by
  obtain ⟨n, hn⟩ : ∃ n, f.bit_len = 8 * n := ⟨f.bit_len / 8, by omega⟩
  obtain ⟨m, hm⟩ : ∃ m, f.bit_off = 8 * m := ⟨f.bit_off / 8, by omega⟩
  have hn' : f.bit_len / 8 = n := by omega
  have hm' : f.bit_off / 8 = m := by omega
  obtain ⟨hpos, hin⟩ := hheld
  rw [hn', hm']
  by_cases hbe : f.le_len < 2
  · -- the octets stand in the order of the number
    rw [if_pos hbe] at hin
    have hroom : m + n ≤ hdr.length := by omega
    have hlen : (slice hdr m (m + n)).length = n := by
      rw [length_slice hroom]
      omega
    refine ⟨slice hdr m (m + n), slice_checked_eq (by omega) hroom, ?_⟩
    rw [if_neg (by omega)]
    apply octets_of_bits hlen
    intro j hj
    have hbit := hbits (8 * n - 1 - j) (by omega)
    rw [FieldDesc.place_be hbe] at hbit
    rw [← hbit]
    apply bit_congr (by omega)
    rw [slice_getElem?, if_pos (by omega)]
    congr 1
    omega
  · -- the group is the field itself, its octets the other way round
    rw [if_neg hbe] at hin
    obtain ⟨hoff, hlen_group, hsmall⟩ := hgroup (by omega)
    obtain ⟨hroom', hfit⟩ := hin
    have hzero : le_off f.bit_off f.le_at = 0 := by
      unfold le_off
      omega
    have hroom : m + n ≤ hdr.length := by omega
    have hlen : (slice hdr m (m + n)).length = n := by
      rw [length_slice hroom]
      omega
    refine ⟨slice hdr m (m + n), slice_checked_eq (by omega) hroom, ?_⟩
    rw [if_pos (by omega)]
    apply octets_of_bits (by rw [List.length_reverse, hlen])
    intro j hj
    have hbit := hbits (8 * n - 1 - j) (by omega)
    rw [FieldDesc.place_le hbe, hzero] at hbit
    rw [← hbit, bit_reverse _ (by rw [hlen]; exact hj), hlen]
    apply bit_congr (by omega)
    rw [slice_getElem?, if_pos (by omega)]
    congr 1
    omega

/-- **A field decodes as the value its own bits spell.** -/
theorem decode_of_bits {hdr : Bytes} {f : FieldDesc} {v : ℕ} (hfixed : f.kind ≠ .VarBytes)
    (hshape : f.Shaped) (hstart : f.kind.octets → 8 ≤ f.bit_len → f.bit_off % 8 = 0)
    (hheld : f.Held hdr.length) (hv : v < 2 ^ 64)
    (hbits : ∀ k < f.bit_len, bit hdr (f.place k) = v.testBit k) :
    decode hdr f = f.holding (v % 2 ^ f.bit_len) := by
  have hpos : 0 < f.bit_len := hheld.1
  have hread : read_uint hdr f = v % 2 ^ f.bit_len := by
    apply Nat.eq_of_testBit_eq
    intro k
    rw [testBit_read_uint hheld, Nat.testBit_mod_two_pow]
    by_cases hk : k < f.bit_len
    · by_cases hlow : k < 64
      · rw [if_pos (by omega), hbits k hk, decide_eq_true hk, Bool.true_and]
      · have hpow : 2 ^ 64 ≤ 2 ^ k := Nat.pow_le_pow_right (by omega) (by omega)
        rw [if_neg (by omega), Nat.testBit_lt_two_pow (Nat.lt_of_lt_of_le hv hpow), Bool.and_false]
    · rw [if_neg (by omega), decide_eq_false hk, Bool.false_and]
  have hmod : ∀ k < f.bit_len, bit hdr (f.place k) = (v % 2 ^ f.bit_len).testBit k := by
    intro k hk
    rw [hbits k hk, Nat.testBit_mod_two_pow, decide_eq_true hk, Bool.true_and]
  have hoctets : f.kind.octets → ∃ src,
      slice_checked hdr (f.bit_off / 8) (f.bit_off / 8 + f.bit_len / 8) = some src ∧
        (if 1 < f.le_len then src.reverse else src) =
          octets_of (f.bit_len / 8) (v % 2 ^ f.bit_len) := by
    intro hkind
    have hwhole := hshape.whole hkind
    exact octets_read hwhole (hstart hkind (by omega)) (hshape.group hkind) hheld hmod
  -- an address is the octets of its width
  have hfixed_bytes : ∀ n, f.bit_len = 8 * n → f.kind.octets →
      fixed_bytes n hdr f = octets_of n (v % 2 ^ f.bit_len) := by
    intro n hwidth hkind
    obtain ⟨src, hsrc, horder⟩ := hoctets hkind
    rw [show f.bit_len / 8 = n from by omega] at hsrc horder
    unfold fixed_bytes
    dsimp only
    rw [hsrc]
    exact horder
  unfold decode FieldDesc.holding
  cases hkind : f.kind with
  | Uint => rw [hread]
  | LeUint => rw [hread]
  | Flags => rw [hread]
  | Ipv4Addr =>
    dsimp only
    rw [hfixed_bytes 4 (hshape.ipv4 hkind) (by rw [hkind]; rfl)]
  | Ipv6Addr =>
    dsimp only
    rw [hfixed_bytes 16 (hshape.ipv6 hkind) (by rw [hkind]; rfl)]
  | MacAddr =>
    dsimp only
    rw [hfixed_bytes 6 (hshape.mac hkind) (by rw [hkind]; rfl)]
  | Bytes =>
    obtain ⟨src, hsrc, horder⟩ := hoctets (by rw [hkind]; rfl)
    dsimp only
    rw [hsrc, Option.getD_some, horder]
  | VarBytes => exact absurd hkind hfixed

/-! ## What the two writes do -/

section Writes

variable (R : Registry) (pkt : Packet) (layer : ℕ) (name : String)

/-- `set_uint` as it is called: what it answers and the packet it leaves. -/
def call_set_uint (val : ℕ) : Bool × Packet :=
  match set_uint R pkt layer name val with
  | some pkt' => (true, pkt')
  | none => (false, pkt)

/-- A bit of the buffer that is the field's own and in the layer's header. -/
def OwnInHeader (s : LayerSpan) (f : FieldDesc) (j : ℕ) : Prop :=
  ∃ k < f.bit_len, j = 8 * (s.hdr_range pkt.buf.length).1 + f.place k ∧
    j < 8 * (s.hdr_range pkt.buf.length).2

/-- Nothing but the field's own bits has changed. -/
def OnlyOwn (pkt' : Packet) (s : LayerSpan) (f : FieldDesc) : Prop :=
  pkt'.buf.length = pkt.buf.length ∧
    ∀ j, ¬OwnInHeader pkt s f j → bit pkt'.buf j = bit pkt.buf j

/-- What is asked of writes to the field `f` of the layer `s`, for every value. -/
structure WritesStay (s : LayerSpan) (f : FieldDesc) : Prop where
  uint_frame : ∀ v < 2 ^ 64, OnlyOwn pkt (call_set_uint R pkt layer name v).2 s f
  bytes_frame : ∀ val pkt', set_bytes R pkt layer name val = some pkt' → OnlyOwn pkt pkt' s f
  uint_read : ∀ v < 2 ^ 64, (call_set_uint R pkt layer name v).1 = true →
    f.Within (pkt.header layer).length →
    get R (call_set_uint R pkt layer name v).2 layer name = some (f.holding (v % 2 ^ f.bit_len))
  refused : ∀ v, (call_set_uint R pkt layer name v).1 = false →
    (call_set_uint R pkt layer name v).2 = pkt

/-- The octets `set_bytes` writes: from the one the field starts in, as many as the field has whole
ones, as far as the buffer goes. -/
def Written (s : LayerSpan) (f : FieldDesc) (i : ℕ) : Prop :=
  s.off + f.bit_off / 8 ≤ i ∧ i < s.off + f.bit_off / 8 + f.bit_len / 8 ∧ i < pkt.buf.length

/-- Every octet `set_bytes` writes is the field's own, in the header; and a field whose bits all lie
in the header lies in its little-endian group, and the group in the header. -/
structure StaysInside (s : LayerSpan) (f : FieldDesc) : Prop where
  octets : ∀ i, Written pkt s f i → ∀ m < 8, OwnInHeader pkt s f (8 * i + m)
  group : 0 < f.bit_len → f.Within (pkt.header layer).length → f.Held (pkt.header layer).length

end Writes

section Frames

variable {R : Registry} {pkt : Packet} {layer : ℕ} {name : String} {s : LayerSpan} {f : FieldDesc}

theorem hdr_range_le (s : LayerSpan) (n : ℕ) :
    (s.hdr_range n).1 ≤ (s.hdr_range n).2 ∧ (s.hdr_range n).2 ≤ n := by
  unfold LayerSpan.hdr_range
  dsimp only
  omega

theorem header_eq_slice (hs : pkt.spans[layer]? = some s) :
    pkt.header layer = slice pkt.buf (s.hdr_range pkt.buf.length).1 (s.hdr_range pkt.buf.length).2 := by
  unfold Packet.header
  rw [hs]
  rfl

theorem length_header (hs : pkt.spans[layer]? = some s) :
    (pkt.header layer).length =
      (s.hdr_range pkt.buf.length).2 - (s.hdr_range pkt.buf.length).1 := by
  rw [header_eq_slice hs, length_slice (hdr_range_le s _).2]

@[simp] theorem pin_spans (pkt : Packet) (layer : ℕ) (proto : ProtoId) (name : String) :
    (pin pkt layer proto name).spans = pkt.spans := by
  unfold pin
  split
  · rfl
  · rfl

@[simp] theorem pin_buf (pkt : Packet) (layer : ℕ) (proto : ProtoId) (name : String) :
    (pin pkt layer proto name).buf = pkt.buf := by
  unfold pin
  split
  · rfl
  · rfl

@[simp] theorem mark_dirty_spans (pkt : Packet) (layer : ℕ) :
    (mark_dirty pkt layer).spans = pkt.spans := rfl

@[simp] theorem mark_dirty_buf (pkt : Packet) (layer : ℕ) :
    (mark_dirty pkt layer).buf = pkt.buf := rfl

/-- What an accepted write leaves. -/
theorem set_uint_some (hs : pkt.spans[layer]? = some s)
    (hf : pkt.active_field R layer name = some f) {v : ℕ} (hv : fits f v = true) :
    ∃ pkt', set_uint R pkt layer name v = some pkt' ∧ pkt'.spans = pkt.spans ∧
      pkt'.buf = edit_slice pkt.buf (s.hdr_range pkt.buf.length).1 (s.hdr_range pkt.buf.length).2
        fun hdr => write_uint hdr f v := by
  unfold set_uint
  rw [hs, hf]
  dsimp only
  rw [if_neg (by rw [hv]; exact Bool.noConfusion)]
  refine ⟨_, rfl, ?_, ?_⟩
  · simp [apply_ite Packet.spans]
  · simp [apply_ite Packet.buf]

theorem set_uint_none (hs : pkt.spans[layer]? = some s)
    (hf : pkt.active_field R layer name = some f) {v : ℕ} (hv : ¬fits f v = true) :
    set_uint R pkt layer name v = none := by
  unfold set_uint
  rw [hs, hf]
  dsimp only
  rw [if_pos (by rw [Bool.not_eq_true] at hv; rw [hv]; rfl)]

/-- The bits of a buffer one stretch of which is edited in place. -/
theorem bit_edit_slice {buf : Bytes} {a b : ℕ} {g : Bytes → Bytes} (hab : a ≤ b) (hb : b ≤ buf.length)
    (hlen : (g (slice buf a b)).length = (slice buf a b).length) (j : ℕ) :
    bit (edit_slice buf a b g) j =
      if 8 * a ≤ j ∧ j < 8 * b then bit (g (slice buf a b)) (j - 8 * a) else bit buf j := by
  have hsize : (g (slice buf a b)).length = b - a := hlen.trans (length_slice hb)
  unfold edit_slice
  rw [bit_put (by omega), hsize, show a + (b - a) = b from by omega]

theorem bit_slice {buf : Bytes} {a b j : ℕ} (hj : j < 8 * (b - a)) :
    bit (slice buf a b) j = bit buf (8 * a + j) := by
  apply bit_congr (by omega)
  rw [slice_getElem?, if_pos (by omega)]
  congr 1
  omega

/-- **The bit writer never leaves the field's own bits.** -/
theorem set_uint_only_own (hs : pkt.spans[layer]? = some s)
    (hf : pkt.active_field R layer name = some f) (v : ℕ) :
    OnlyOwn pkt (call_set_uint R pkt layer name v).2 s f := by
  -- A value that fits writes the field's own bits of the header; any other changes nothing.
  by_cases hv : fits f v = true
  · obtain ⟨pkt', hset, -, hbuf⟩ := set_uint_some hs hf hv
    have hcall : (call_set_uint R pkt layer name v).2 = pkt' := by
      unfold call_set_uint
      rw [hset]
    obtain ⟨hab, hb⟩ := hdr_range_le s pkt.buf.length
    rw [hcall]
    refine ⟨?_, ?_⟩
    · rw [hbuf]
      exact length_edit_slice hab hb (length_write_uint _ _ _)
    · intro j hj
      rw [hbuf, bit_edit_slice hab hb (length_write_uint _ _ _)]
      split
      -- a bit that is not the field's own keeps its value
      · rename_i hin
        have hown : ¬f.Own (j - 8 * (s.hdr_range pkt.buf.length).1) := by
          rintro ⟨k, hk, hplace⟩
          exact hj ⟨k, hk, by omega, hin.2⟩
        rw [bit_write_uint_of_not_own _ _ hown, bit_slice (by omega)]
        congr 1
        omega
      · rfl
  · have hcall : (call_set_uint R pkt layer name v).2 = pkt := by
      unfold call_set_uint
      rw [set_uint_none hs hf hv]
    rw [hcall]
    exact ⟨rfl, fun _ _ => rfl⟩

/-- What `set_bytes` leaves of a fixed-width field. -/
theorem set_bytes_fixed (hs : pkt.spans[layer]? = some s)
    (hf : pkt.active_field R layer name = some f) (hfixed : f.kind ≠ .VarBytes) (val : Bytes) :
    ∃ pkt' bs, set_bytes R pkt layer name val = some pkt' ∧
      pkt'.buf = put pkt.buf (min (s.off + f.bit_off / 8) pkt.buf.length) bs ∧
      bs.length = min (pkt.buf.length - min (s.off + f.bit_off / 8) pkt.buf.length) (f.bit_len / 8) ∧
      bs = (wire_octets f val).take bs.length ++
        List.replicate (bs.length - ((wire_octets f val).take bs.length).length) 0 := by
  obtain ⟨room, hroom⟩ : ∃ room, room =
    min (pkt.buf.length - min (s.off + f.bit_off / 8) pkt.buf.length) (f.bit_len / 8) := ⟨_, rfl⟩
  have hlen : ((wire_octets f val).take room ++
      List.replicate (room - ((wire_octets f val).take room).length) 0).length = room := by
    rw [List.length_append, List.length_replicate, List.length_take]
    omega
  refine ⟨mark_dirty { pkt with
      buf := put pkt.buf (min (s.off + f.bit_off / 8) pkt.buf.length)
        ((wire_octets f val).take room ++
          List.replicate (room - ((wire_octets f val).take room).length) 0) } layer,
    (wire_octets f val).take room ++
      List.replicate (room - ((wire_octets f val).take room).length) 0, ?_, rfl, hlen.trans hroom, ?_⟩
  · unfold set_bytes
    rw [hs, hf]
    dsimp only
    rw [if_neg hfixed, ← hroom]
  · rw [hlen]

/-- A write of octets changes only the field's own when every octet written holds nothing else. -/
theorem set_bytes_only_own (hs : pkt.spans[layer]? = some s)
    (hf : pkt.active_field R layer name = some f) (hfixed : f.kind ≠ .VarBytes)
    (hkept : ∀ i, Written pkt s f i → ∀ m < 8, OwnInHeader pkt s f (8 * i + m)) {val : Bytes}
    {pkt' : Packet} (h : set_bytes R pkt layer name val = some pkt') : OnlyOwn pkt pkt' s f := by
  obtain ⟨pkt'', bs, hset, hbuf, hlen, -⟩ := set_bytes_fixed hs hf hfixed val
  rw [hset] at h
  rw [← Option.some.inj h]
  have hroom : min (s.off + f.bit_off / 8) pkt.buf.length + bs.length ≤ pkt.buf.length := by
    omega
  refine ⟨?_, ?_⟩
  · rw [hbuf]
    exact length_put hroom
  · intro j hj
    rw [hbuf, bit_put hroom]
    split
    · rename_i hin
      have hown := hkept (j / 8) ⟨by omega, by omega, by omega⟩ (j % 8) (by omega)
      rw [show 8 * (j / 8) + j % 8 = j from by omega] at hown
      exact absurd hown hj
    · rfl

/-- A run of one octet is stored as it is, in either order. -/
theorem wire_octets_replicate (f : FieldDesc) (x : UInt8) :
    wire_octets f (List.replicate (f.bit_len / 8) x) = List.replicate (f.bit_len / 8) x := by
  unfold wire_octets
  split
  · rfl
  · rw [List.take_of_length_le (by rw [List.length_replicate]), List.length_replicate, Nat.sub_self,
      List.replicate_zero, List.append_nil, List.reverse_replicate]

/-- An octet with every bit turned over. -/
theorem bit_complement (x : UInt8) {m : ℕ} (hm : m < 8) :
    (~~~x).toNat.testBit m = !x.toNat.testBit m := by
  have hsub : UInt8.size - 1 - x.toNat = 2 ^ 8 - (x.toNat + 1) := by
    rw [Nat.sub_sub, Nat.add_comm]
    rfl
  rw [UInt8.toNat_not, hsub, Nat.testBit_two_pow_sub_succ x.toNat_lt, decide_eq_true hm,
    Bool.true_and]

/-- **An octet `set_bytes` writes can be made to change in every bit.** -/
theorem set_bytes_turns_over (hs : pkt.spans[layer]? = some s)
    (hf : pkt.active_field R layer name = some f) (hfixed : f.kind ≠ .VarBytes) {i : ℕ}
    (hi : Written pkt s f i) :
    ∃ val pkt', set_bytes R pkt layer name val = some pkt' ∧
      ∀ m < 8, bit pkt'.buf (8 * i + m) = !bit pkt.buf (8 * i + m) := by
  obtain ⟨hlo, hhi, hin⟩ := hi
  -- Write the complement of one octet all along the field: every bit of it turns over.
  obtain ⟨x, hx⟩ : ∃ x, x = ~~~(pkt.buf.getD i 0) := ⟨_, rfl⟩
  obtain ⟨pkt', bs, hset, hbuf, hlen, hbs⟩ :=
    set_bytes_fixed hs hf hfixed (List.replicate (f.bit_len / 8) x)
  refine ⟨_, pkt', hset, ?_⟩
  -- the octets that reach the wire are the last of those, so they are all that octet
  have hrun : bs = List.replicate bs.length x := by
    rw [wire_octets_replicate, List.take_replicate, List.length_replicate,
      Nat.min_eq_left (show bs.length ≤ f.bit_len / 8 by omega), Nat.sub_self, List.replicate_zero,
      List.append_nil] at hbs
    exact hbs
  have hroom : min (s.off + f.bit_off / 8) pkt.buf.length + bs.length ≤ pkt.buf.length := by
    omega
  have hoctet : pkt'.buf[i]? = some x := by
    rw [hbuf, put_getElem? hroom, if_pos (by omega), hrun, List.getElem?_replicate,
      if_pos (by omega)]
  intro m hm
  have hnew : pkt'.buf.getD i 0 = x := by
    rw [List.getD_eq_getElem?_getD, hoctet, Option.getD_some]
  unfold bit
  rw [show (8 * i + m) / 8 = i from by omega, hnew, hx]
  exact bit_complement _ (by omega)

/-! ## Exactly when writes stay in their field -/

/-- The fields of one name are gated on other bits than the field's own: a field is gated on an
earlier one of its header. -/
def GatedElsewhere (R : Registry) (pkt : Packet) (layer : ℕ) (s : LayerSpan) (f : FieldDesc) : Prop :=
  ∀ g ∈ R.fields_of s.proto (0 < pkt.framing layer), g.name = f.name → ∀ hdr hdr' : Bytes,
    hdr.length = hdr'.length → (∀ j, ¬f.Own j → bit hdr j = bit hdr' j) →
      g.is_active hdr = g.is_active hdr'

theorem find_active_congr {fields : List FieldDesc} {hdr hdr' : Bytes} {name : String}
    (h : ∀ g ∈ fields, g.name = name → g.is_active hdr = g.is_active hdr') :
    (fields.find? fun g => g.is_active hdr && g.name == name) =
      fields.find? fun g => g.is_active hdr' && g.name == name := by
  apply List.find?_congr
  intro g hg
  by_cases hname : g.name = name
  · rw [h g hg hname]
  · rw [beq_eq_false_iff_ne.2 hname, Bool.and_false, Bool.and_false]

theorem active_name (hs : pkt.spans[layer]? = some s) (hf : pkt.active_field R layer name = some f) :
    f.name = name := by
  unfold Packet.active_field Registry.active_field_of at hf
  rw [hs] at hf
  have hfound := List.find?_some hf
  exact beq_iff_eq.1 (Bool.and_eq_true_iff.1 hfound).2

/-- The layer's header behind an accepted write. -/
theorem header_of_edit {pkt' : Packet} (hs : pkt.spans[layer]? = some s)
    (hspans : pkt'.spans = pkt.spans) {v : ℕ}
    (hbuf : pkt'.buf = edit_slice pkt.buf (s.hdr_range pkt.buf.length).1
      (s.hdr_range pkt.buf.length).2 fun hdr => write_uint hdr f v) :
    pkt'.header layer = write_uint (pkt.header layer) f v := by
  obtain ⟨hab, hb⟩ := hdr_range_le s pkt.buf.length
  have hlen : pkt'.buf.length = pkt.buf.length := by
    rw [hbuf]
    exact length_edit_slice hab hb (length_write_uint _ _ _)
  have hs' : pkt'.spans[layer]? = some s := by rw [hspans, hs]
  have hsize := length_slice hb (a := (s.hdr_range pkt.buf.length).1)
  rw [header_eq_slice hs', header_eq_slice hs, hlen]
  apply Bits.ext
  · rw [length_write_uint, hsize, length_slice (by rw [hlen]; exact hb)]
  · intro j hj
    rw [length_slice (by rw [hlen]; exact hb)] at hj
    rw [bit_slice hj, hbuf, bit_edit_slice hab hb (length_write_uint _ _ _), if_pos (by omega)]
    congr 1
    omega

/-- The field is still the active one of its name behind a write to it. -/
theorem active_field_of_edit {pkt' : Packet} (hs : pkt.spans[layer]? = some s)
    (hf : pkt.active_field R layer name = some f) (hgate : GatedElsewhere R pkt layer s f)
    (hspans : pkt'.spans = pkt.spans) {v : ℕ}
    (hheader : pkt'.header layer = write_uint (pkt.header layer) f v) :
    pkt'.active_field R layer name = some f := by
  have hname := active_name hs hf
  rw [← hf]
  unfold Packet.active_field Packet.framing
  rw [hspans, hs, hheader]
  apply find_active_congr
  intro g hg hgname
  refine hgate g hg (hgname.trans hname.symm) _ _ (length_write_uint _ _ _) ?_
  intro j hj
  exact bit_write_uint_of_not_own _ v hj

/-- A field of no width reads as nothing. -/
theorem decode_of_empty (hfixed : f.kind ≠ .VarBytes) (hshape : f.Shaped) (hempty : f.bit_len = 0)
    (hdr : Bytes) (v : ℕ) : decode hdr f = f.holding (v % 2 ^ f.bit_len) := by
  -- A field without bits reads as zero, and a slice without octets is empty.
  have hread : read_uint hdr f = 0 := by
    apply read_uint_of_not_held
    rintro ⟨hpos, -⟩
    omega
  have hslice : ∀ b, (slice_checked hdr b (b + 0)).getD [] = [] := by
    intro b
    unfold slice_checked
    split
    · rw [Option.getD_some, slice, Nat.add_zero, List.drop_eq_nil_of_le]
      rw [List.length_take]
      omega
    · rfl
  have hipv4 := hshape.ipv4
  have hipv6 := hshape.ipv6
  have hmac := hshape.mac
  unfold decode FieldDesc.holding
  rw [hempty, Nat.pow_zero, Nat.mod_one]
  -- By the kind; an address always has bits.
  cases hkind : f.kind with
  | Uint => rw [hread]
  | LeUint => rw [hread]
  | Flags => rw [hread]
  | Ipv4Addr => exact absurd (hipv4 hkind) (by omega)
  | Ipv6Addr => exact absurd (hipv6 hkind) (by omega)
  | MacAddr => exact absurd (hmac hkind) (by omega)
  | Bytes =>
    dsimp only
    rw [Nat.zero_div, hslice]
    split
    · rfl
    · rfl
  | VarBytes => exact absurd hkind hfixed

/-- **What is written is read back** where the octets of the field are its own. -/
theorem get_of_set_uint (hs : pkt.spans[layer]? = some s)
    (hf : pkt.active_field R layer name = some f) (hfixed : f.kind ≠ .VarBytes)
    (hshape : f.Shaped) (hgate : GatedElsewhere R pkt layer s f)
    (hstays : StaysInside pkt layer s f) {v : ℕ} (hv : v < 2 ^ 64)
    (haccepted : (call_set_uint R pkt layer name v).1 = true)
    (hwithin : f.Within (pkt.header layer).length) :
    get R (call_set_uint R pkt layer name v).2 layer name =
      some (f.holding (v % 2 ^ f.bit_len)) := by
  have hfit : fits f v = true := by
    by_contra hrefused
    unfold call_set_uint at haccepted
    rw [set_uint_none hs hf hrefused] at haccepted
    exact absurd haccepted Bool.false_ne_true
  obtain ⟨pkt', hset, hspans, hbuf⟩ := set_uint_some hs hf hfit
  have hcall : (call_set_uint R pkt layer name v).2 = pkt' := by
    unfold call_set_uint
    rw [hset]
  have hheader := header_of_edit (f := f) (v := v) hs hspans hbuf
  rw [hcall, get, active_field_of_edit hs hf hgate hspans hheader, Option.map_some, hheader]
  apply congrArg some
  by_cases hempty : f.bit_len = 0
  · exact decode_of_empty hfixed hshape hempty _ v
  · have hheld := hstays.group (by omega) hwithin
    have hheld' : f.Held (write_uint (pkt.header layer) f v).length := by
      rw [length_write_uint]
      exact hheld
    refine decode_of_bits hfixed hshape ?_ hheld' hv fun k hk => bit_write_uint_place hheld hv hk
    intro hkind hwide
    by_cases hle : 2 ≤ f.le_len
    · rw [(hshape.group hkind hle).1]
      omega
    · -- the first octet written is whole, so the field starts where it does
      obtain ⟨-, hin⟩ := hheld
      rw [if_pos (by omega), length_header hs] at hin
      have hrange : (s.hdr_range pkt.buf.length).1 = min s.off pkt.buf.length := rfl
      obtain ⟨hab, hb⟩ := hdr_range_le s pkt.buf.length
      obtain ⟨k, hk, hplace, -⟩ :=
        hstays.octets (s.off + f.bit_off / 8) ⟨le_rfl, by omega, by omega⟩ 0 (by omega)
      rw [FieldDesc.place_be (by omega)] at hplace
      omega

/-- A field reads differently for 0 and 1. -/
theorem holding_ne (hfixed : f.kind ≠ .VarBytes) (hshape : f.Shaped) (hpos : 0 < f.bit_len) :
    f.holding (0 % 2 ^ f.bit_len) ≠ f.holding (1 % 2 ^ f.bit_len) := by
  have hone : 1 % 2 ^ f.bit_len = 1 := Nat.mod_eq_of_lt (Nat.one_lt_two_pow (by omega))
  have hoctets : ∀ n, 0 < n → octets_of n 0 ≠ octets_of n 1 := by
    intro n hn heq
    have hbit : bit (octets_of n 0) (8 * n - 1) = bit (octets_of n 1) (8 * n - 1) := by rw [heq]
    rw [bit_octets_of (by omega), bit_octets_of (by omega), Nat.sub_self] at hbit
    exact absurd hbit (by decide)
  have hwhole := hshape.whole
  rw [Nat.zero_mod, hone]
  unfold FieldDesc.holding
  cases hkind : f.kind with
  | Uint => exact fun h => absurd (FieldValue.Uint.inj h) (by omega)
  | LeUint => exact fun h => absurd (FieldValue.Uint.inj h) (by omega)
  | Flags => exact fun h => absurd (FieldValue.Flags.inj h) (by omega)
  | Ipv4Addr => exact fun h => hoctets 4 (by omega) (FieldValue.Ipv4.inj h)
  | Ipv6Addr => exact fun h => hoctets 16 (by omega) (FieldValue.Ipv6.inj h)
  | MacAddr => exact fun h => hoctets 6 (by omega) (FieldValue.Mac.inj h)
  | Bytes =>
    have hmod := hwhole (by rw [hkind]; rfl)
    exact fun h => hoctets (f.bit_len / 8) (by omega) (FieldValue.Bytes.inj h)
  | VarBytes => exact absurd hkind hfixed

/-- A write the header takes no bit of leaves every field reading as it did. -/
theorem get_of_dropped (hs : pkt.spans[layer]? = some s)
    (hf : pkt.active_field R layer name = some f) (hheld : ¬f.Held (pkt.header layer).length) (v : ℕ) :
    get R (call_set_uint R pkt layer name v).2 layer name = get R pkt layer name := by
  by_cases hv : fits f v = true
  · obtain ⟨pkt', hset, hspans, hbuf⟩ := set_uint_some hs hf hv
    have hcall : (call_set_uint R pkt layer name v).2 = pkt' := by
      unfold call_set_uint
      rw [hset]
    have hheader := header_of_edit (f := f) (v := v) hs hspans hbuf
    rw [write_uint_of_not_held hheld] at hheader
    rw [hcall]
    unfold get Packet.active_field Packet.framing
    rw [hspans, hheader]
  · unfold call_set_uint
    rw [set_uint_none hs hf hv]

/-- Zero fits every field. -/
theorem fits_zero (f : FieldDesc) : fits f 0 = true := by
  unfold fits
  split
  · rfl
  · rw [Nat.zero_shiftRight]
    rfl

theorem fits_one (hpos : 0 < f.bit_len) : fits f 1 = true := by
  unfold fits
  split
  · rfl
  · rw [Nat.shiftRight_eq_div_pow, Nat.div_eq_of_lt (Nat.one_lt_two_pow (by omega))]
    rfl

end Frames

/-- A UDP header of its own. -/
def udp_packet : Packet where
  buf := [0, 53, 0, 53, 0, 8, 0, 0]
  spans := [⟨.Udp, 0, 8, 8⟩]
  dirty := 0
  resized := false
  pinned := []

/-- UDP's destination port, as its table has it. -/
def udp_dport : FieldDesc := .uint "dport" 16 16 53

/-- An echo request and four octets of data. -/
def echo_packet : Packet := dissect .plain [8, 0, 0, 0, 0, 1, 0, 1, 0xaa, 0xbb, 0xcc, 0xdd] .Icmp

/-- The same made an address mask request, whose header stays eight octets long. -/
def mask_request : Packet := (call_set_uint .plain echo_packet 0 "type" 17).2

end Wiry.Packet
