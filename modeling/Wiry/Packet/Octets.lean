/-
Octets read and written in place: `copy_from_slice` into a buffer, big-endian
integers read back from one, and `wide` of `crates/wiry-core/src/field.rs`.

What is put into a buffer is described octet by octet (`put_getElem?`), so that
a frame condition is the case of an index outside the range.
-/
import Wiry.Lib.Endian
import Wiry.Packet.Spans

set_option autoImplicit false

namespace Wiry.Packet

/-! ## Addresses -/

/-- `[u8; 16]`: an address of either version. -/
structure Addr where
  octets : Bytes
  length_eq : octets.length = 16
deriving DecidableEq, Repr

/-- `field::wide`: an IPv4 address is followed by zeros. -/
def wide (addr : Bytes) : Addr where
  octets := addr.take 16 ++ List.replicate (16 - min 16 addr.length) 0
  length_eq := by
    rw [List.length_append, List.length_take, List.length_replicate]
    omega

/-! ## Slices -/

theorem length_slice {buf : Bytes} {a b : ℕ} (hb : b ≤ buf.length) :
    (slice buf a b).length = b - a := by
  rw [slice, List.length_drop, List.length_take, Nat.min_eq_left hb]

/-- The octets of a slice. -/
theorem slice_getElem? (buf : Bytes) (a b i : ℕ) :
    (slice buf a b)[i]? = if a + i < b then buf[a + i]? else none := by
  rw [slice, List.getElem?_drop]
  by_cases hi : a + i < b
  · rw [if_pos hi, List.getElem?_take_of_lt hi]
  · rw [if_neg hi]
    exact List.getElem?_eq_none (by rw [List.length_take]; omega)

/-- Slices are alike where the octets are. -/
theorem slice_congr {f g : Bytes} {a b : ℕ} (h : ∀ i, a ≤ i → i < b → f[i]? = g[i]?) :
    slice f a b = slice g a b := by
  apply List.ext_getElem?
  intro i
  rw [slice_getElem?, slice_getElem?]
  by_cases hi : a + i < b
  · rw [if_pos hi, if_pos hi, h _ (Nat.le_add_right a i) hi]
  · rw [if_neg hi, if_neg hi]

/-- What a slice inside the first part of a buffer reads. -/
theorem slice_append_left {f : Bytes} (g : Bytes) {a b : ℕ} (hb : b ≤ f.length) :
    slice (f ++ g) a b = slice f a b :=
  slice_congr fun _ _ hi => List.getElem?_append_left (by omega)

/-- What a slice of the rest reads. -/
theorem slice_append_right (f : Bytes) {g : Bytes} {n : ℕ} (hn : n = f.length) (m : ℕ) :
    slice (f ++ g) n (n + m) = g.take m := by
  subst hn
  rw [slice, List.take_length_add_append, List.drop_left]

/-- A buffer up to `b` is what comes before `a` and the slice from there. -/
theorem take_append_slice (f : Bytes) {a b : ℕ} (h : a ≤ b) : f.take a ++ slice f a b = f.take b := by
  have htake : f.take a = (f.take b).take a := by rw [List.take_take, Nat.min_eq_left h]
  rw [htake, slice, List.take_append_drop]

/-! ## Octets written over -/

/-- `f[i..i + bs.len()].copy_from_slice(bs)`. -/
def put (f : Bytes) (i : ℕ) (bs : Bytes) : Bytes := f.take i ++ bs ++ f.drop (i + bs.length)

theorem length_put {f : Bytes} {i : ℕ} {bs : Bytes} (h : i + bs.length ≤ f.length) :
    (put f i bs).length = f.length := by
  simp only [put, List.length_append, List.length_take, List.length_drop]
  omega

/-- The octets of a buffer after others were put into it. -/
theorem put_getElem? {f : Bytes} {i : ℕ} {bs : Bytes} (h : i + bs.length ≤ f.length) (j : ℕ) :
    (put f i bs)[j]? = if i ≤ j ∧ j < i + bs.length then bs[j - i]? else f[j]? := by
  have hi : (f.take i).length = i := by
    rw [List.length_take]
    omega
  unfold put
  rw [List.append_assoc]
  by_cases hlo : j < i
  · rw [List.getElem?_append_left (by omega), List.getElem?_take_of_lt hlo, if_neg (by omega)]
  · rw [List.getElem?_append_right (by omega), hi]
    by_cases hhi : j < i + bs.length
    · rw [List.getElem?_append_left (by omega), if_pos (by omega)]
    · rw [List.getElem?_append_right (by omega), List.getElem?_drop, if_neg (by omega)]
      congr 1
      omega

/-- Octets written over once more. -/
theorem put_put {f : Bytes} {i : ℕ} {bs bs' : Bytes} (h : i + bs.length ≤ f.length)
    (heq : bs.length = bs'.length) : put (put f i bs) i bs' = put f i bs' := by
  apply List.ext_getElem?
  intro j
  have hlen := length_put h
  rw [put_getElem? (by omega), put_getElem? h, put_getElem? (by omega), heq]
  split
  · rfl
  · rfl

/-- Writes apart from each other go in either order. -/
theorem put_comm {f : Bytes} {i j : ℕ} {bs bs' : Bytes} (hi : i + bs.length ≤ f.length)
    (hj : j + bs'.length ≤ f.length) (hapart : i + bs.length ≤ j ∨ j + bs'.length ≤ i) :
    put (put f i bs) j bs' = put (put f j bs') i bs := by
  apply List.ext_getElem?
  intro n
  have hleni := length_put hi
  have hlenj := length_put hj
  rw [put_getElem? (by omega), put_getElem? hi, put_getElem? (by omega), put_getElem? hj]
  by_cases hni : i ≤ n ∧ n < i + bs.length
  · rw [if_pos hni, if_neg (by omega), if_pos hni]
  · rw [if_neg hni, if_neg hni]

/-- Writing what is there changes nothing. -/
theorem put_self {f : Bytes} {i : ℕ} {bs : Bytes} (h : i + bs.length ≤ f.length)
    (heq : ∀ n, n < bs.length → bs[n]? = f[i + n]?) : put f i bs = f := by
  apply List.ext_getElem?
  intro j
  rw [put_getElem? h]
  by_cases hj : i ≤ j ∧ j < i + bs.length
  · rw [if_pos hj, heq _ (by omega)]
    congr 1
    omega
  · rw [if_neg hj]

theorem put_append_left {f : Bytes} (g : Bytes) {i : ℕ} {bs : Bytes} (h : i + bs.length ≤ f.length) :
    put (f ++ g) i bs = put f i bs ++ g := by
  unfold put
  rw [List.take_append_of_le_length (by omega), List.drop_append_of_le_length h,
    List.append_assoc, List.append_assoc, List.append_assoc]

/-- Two octets read alike where they are alike. -/
theorem be16_congr {f g : Bytes} {i j : ℕ} (h : ∀ n, n < 2 → f[i + n]? = g[j + n]?) :
    be16 f i = be16 g j := by
  have h0 := h 0 (by omega)
  have h1 := h 1 (by omega)
  simp only [Nat.add_zero] at h0
  unfold be16
  rw [List.getD_eq_getElem?_getD, List.getD_eq_getElem?_getD, List.getD_eq_getElem?_getD,
    List.getD_eq_getElem?_getD, h0, h1]

/-- What is read inside the first part of a buffer. -/
theorem be16_append_left {f : Bytes} (g : Bytes) {i : ℕ} (h : i + 2 ≤ f.length) :
    be16 (f ++ g) i = be16 f i :=
  be16_congr fun _ _ => List.getElem?_append_left (by omega)

/-- What is read in the rest. -/
theorem be16_append_right (f : Bytes) {g : Bytes} {n : ℕ} (hn : n = f.length) (i : ℕ) :
    be16 (f ++ g) (n + i) = be16 g i := by
  apply be16_congr
  intro j _
  subst hn
  rw [List.getElem?_append_right (by omega)]
  congr 1
  omega

theorem be16_take (f : Bytes) {i n : ℕ} (h : i + 2 ≤ n) : be16 (f.take n) i = be16 f i :=
  be16_congr fun _ _ => List.getElem?_take_of_lt (by omega)

theorem getD_append_left {f : Bytes} (g : Bytes) {i : ℕ} (h : i < f.length) :
    (f ++ g).getD i 0 = f.getD i 0 := by
  rw [List.getD_eq_getElem?_getD, List.getD_eq_getElem?_getD, List.getElem?_append_left h]

theorem be16_put_of_apart {f : Bytes} {i : ℕ} {bs : Bytes} (h : i + bs.length ≤ f.length) {j : ℕ}
    (hapart : i + bs.length ≤ j ∨ j + 2 ≤ i) : be16 (put f i bs) j = be16 f j := by
  apply be16_congr
  intro n hn
  rw [put_getElem? h, if_neg (by omega)]

/-- Four octets read alike where they are alike. -/
theorem be32_congr {f g : Bytes} {i j : ℕ} (h : ∀ n, n < 4 → f[i + n]? = g[j + n]?) :
    be32 f i = be32 g j := by
  have hget : ∀ n, n < 4 → f.getD (i + n) 0 = g.getD (j + n) 0 := by
    intro n hn
    rw [List.getD_eq_getElem?_getD, List.getD_eq_getElem?_getD, h n hn]
  unfold be32 be16
  have h0 := hget 0 (by omega)
  have h1 := hget 1 (by omega)
  have h2 := hget 2 (by omega)
  have h3 := hget 3 (by omega)
  simp only [Nat.add_zero] at h0
  simp only [Nat.add_assoc]
  rw [h0, h1, h2, h3]

theorem be32_append_right (f : Bytes) {g : Bytes} {n : ℕ} (hn : n = f.length) (i : ℕ) :
    be32 (f ++ g) (n + i) = be32 g i := by
  unfold be32
  rw [be16_append_right f hn, Nat.add_assoc, be16_append_right f hn]

/-- A write leaves what is read beside it. -/
theorem be32_put_of_apart {f : Bytes} {i : ℕ} {bs : Bytes} (h : i + bs.length ≤ f.length) {j : ℕ}
    (hapart : i + bs.length ≤ j ∨ j + 4 ≤ i) : be32 (put f i bs) j = be32 f j := by
  apply be32_congr
  intro n hn
  rw [put_getElem? h, if_neg (by omega)]

theorem length_octets_of (n v : ℕ) : (octets_of n v).length = n := by
  induction n with
  | zero => rfl
  | succ n ih => rw [octets_of, List.length_cons, ih]

/-- Octets read as the number they are of. -/
theorem big_octets_of (n v : ℕ) : Endian.big (octets_of n v) = v % 2 ^ (8 * n) := by
  induction n with
  | zero => simp [octets_of, Endian.big, Endian.value, Nat.mod_one]
  | succ n ih =>
    have hcons := Endian.big_append [UInt8.ofNat (v / 2 ^ (8 * n))] (octets_of n v)
    have hone : Endian.big [UInt8.ofNat (v / 2 ^ (8 * n))] = v / 2 ^ (8 * n) % 2 ^ 8 := by
      simp [Endian.big, Endian.value]
    rw [List.singleton_append, ih, hone, length_octets_of] at hcons
    rw [octets_of, hcons, show 8 * (n + 1) = 8 * n + 8 by omega, Nat.pow_add, Nat.mod_mul,
      Nat.add_comm, Nat.mul_comm (2 ^ (8 * n))]

theorem be16_octets (v : UInt16) (rest : Bytes) : be16 (octets_of 2 v.toNat ++ rest) 0 = v := by
  have hlt := v.toNat_lt
  apply UInt16.toNat_inj.1
  simp only [be16, octets_of, List.cons_append, List.nil_append, List.getD_cons_zero,
    List.getD_cons_succ, UInt8.toNat_ofNat', UInt16.toNat_ofNat']
  omega

/-- So is a double word. -/
theorem be32_octets (v : UInt32) (rest : Bytes) : be32 (octets_of 4 v.toNat ++ rest) 0 = v := by
  have hlt := v.toNat_lt
  apply UInt32.toNat_inj.1
  simp only [be32, be16, octets_of, List.cons_append, List.nil_append, List.getD_cons_zero,
    List.getD_cons_succ, UInt8.toNat_ofNat', UInt16.toNat_ofNat', UInt32.toNat_ofNat']
  omega

/-- What is written as two octets is read back. -/
theorem be16_put_octets {f : Bytes} {i : ℕ} (h : i + 2 ≤ f.length) {v : ℕ} (hv : v < 2 ^ 16) :
    (be16 (put f i (octets_of 2 v)) i).toNat = v := by
  have hread : be16 (put f i (octets_of 2 v)) i = be16 (octets_of 2 v) 0 := by
    apply be16_congr
    intro n hn
    rw [put_getElem? (by rw [length_octets_of]; exact h), length_octets_of, if_pos (by omega)]
    congr 1
    omega
  rw [hread]
  simp only [be16, octets_of, List.getD_cons_zero, List.getD_cons_succ, UInt8.toNat_ofNat',
    UInt16.toNat_ofNat']
  omega

theorem be16_put_word {f : Bytes} {i : ℕ} (h : i + 2 ≤ f.length) (v : UInt16) :
    be16 (put f i (octets_of 2 v.toNat)) i = v :=
  UInt16.toNat_inj.1 (be16_put_octets h v.toNat_lt)

theorem getElem?_eq_getD {f : Bytes} {i : ℕ} (h : i < f.length) : f[i]? = some (f.getD i 0) := by
  rw [List.getD_eq_getElem?_getD, List.getElem?_eq_getElem h]
  rfl

/-- The word read at a place, written back there. -/
theorem put_be16 {f : Bytes} {i : ℕ} (h : i + 2 ≤ f.length) :
    put f i (octets_of 2 (be16 f i).toNat) = f := by
  apply put_self (by rw [length_octets_of]; exact h)
  rw [length_octets_of]
  intro n hn
  have hlow := (f.getD (i + 1) 0).toNat_lt
  have hhigh := (f.getD i 0).toNat_lt
  -- the word, as its two octets spell it
  have hword : (be16 f i).toNat = (f.getD i 0).toNat * 2 ^ 8 + (f.getD (i + 1) 0).toNat := by
    rw [be16, UInt16.toNat_ofNat', Nat.mod_eq_of_lt (by omega)]
  have hoctet : ∀ b : UInt8, ∀ v : ℕ, v % 2 ^ 8 = b.toNat → UInt8.ofNat v = b := by
    intro b v hv
    apply UInt8.toNat_inj.1
    rw [UInt8.toNat_ofNat', hv]
  rw [getElem?_eq_getD (show i + n < f.length by omega), hword]
  match n, hn with
  | 0, _ =>
    apply congrArg some
    apply hoctet
    simp only [Nat.add_zero]
    omega
  | 1, _ =>
    apply congrArg some
    apply hoctet
    rw [Nat.mul_zero, Nat.pow_zero, Nat.div_one]
    omega

/-- What is written as four octets is read back. -/
theorem be32_put_octets {f : Bytes} {i : ℕ} (h : i + 4 ≤ f.length) (v : UInt32) :
    be32 (put f i (octets_of 4 v.toNat)) i = v := by
  have hread : be32 (put f i (octets_of 4 v.toNat)) i = be32 (octets_of 4 v.toNat) 0 := by
    apply be32_congr
    intro n hn
    rw [put_getElem? (by rw [length_octets_of]; exact h), length_octets_of, if_pos (by omega)]
    congr 1
    omega
  have hlt := v.toNat_lt
  rw [hread]
  apply UInt32.toNat_inj.1
  simp only [be32, be16, octets_of, List.getD_cons_zero, List.getD_cons_succ, UInt8.toNat_ofNat',
    UInt16.toNat_ofNat', UInt32.toNat_ofNat']
  omega

end Wiry.Packet
