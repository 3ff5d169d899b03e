/-
`_BitField` of `python/wiry/_pyfields.py`: fields that are runs of bits, one threaded behind the
other through the octets.

Both directions are followed as numbers. What is written so far is a number of as many bits as the
fields took, and what is left to read is one too, so a field is a digit of it.
-/
import Mathlib.Tactic.Positivity
import Mathlib.Tactic.Ring
import Mathlib.Tactic.Zify
import Wiry.Lib.Endian
import Wiry.Packet.Octets

set_option autoImplicit false

namespace Wiry.Pyfields

open Packet Endian

/-! ## The field -/

structure BitField where
  rev : Bool
  size : ℕ
  tot_size : ℕ
  end_tot_size : ℕ

/-- `__init__`: a group size that is not given is the field's own octets. -/
def BitField.init (size tot_size end_tot_size : ℤ) : BitField where
  rev := size < 0 ∨ tot_size < 0 ∨ end_tot_size < 0
  size := size.natAbs
  tot_size := if tot_size = 0 then size.natAbs / 8 else tot_size.natAbs
  end_tot_size := if end_tot_size = 0 then size.natAbs / 8 else end_tot_size.natAbs

/-- What passes from field to field: octets, and behind them what is kept while an octet is not
whole. -/
inductive Threaded (α : Type) where
  | octets (s : Bytes)
  | bits (s : Bytes) (rest : α)

/-! ## Writing -/

/-- `val & ((1 << self.size) - 1)`: a value as its field has room for it. -/
def field_value (size : ℕ) (val : ℤ) : ℕ := (val % 2 ^ size).toNat

/-- `struct.pack` of a `!B`. -/
def pack_B (v : ℕ) : Option UInt8 := if v < 2 ^ 8 then some (UInt8.ofNat v) else none

/-- The octets that are whole go out. -/
def emit (s : Bytes) (bitsdone v : ℕ) : Option (Bytes × ℕ × ℕ) :=
  if 8 ≤ bitsdone then
    match pack_B (v >>> (bitsdone - 8)) with
    | some o => emit (s ++ [o]) (bitsdone - 8) (v &&& (1 <<< (bitsdone - 8) - 1))
    | none => none
  else some (s, bitsdone, v)
termination_by bitsdone

namespace BitField

variable (fld : BitField)

/-- What a field leaves for the next one: at the end of a group its octets the other way round. -/
def ended : Bytes × ℕ × ℕ → Threaded (ℕ × ℕ)
  | (s, bitsdone, v) =>
    if bitsdone ≠ 0 then .bits s (bitsdone, v)
    else if fld.rev ∧ 1 < fld.end_tot_size then
      .octets (s.take (s.length - fld.end_tot_size) ++ (s.drop (s.length - fld.end_tot_size)).reverse)
    else .octets s

/-- `addfield`. -/
def addfield (s : Threaded (ℕ × ℕ)) (val : ℤ) : Option (Threaded (ℕ × ℕ)) :=
  let (s, bitsdone, v) := match s with
    | .octets s => (s, 0, 0)
    | .bits s (bitsdone, v) => (s, bitsdone, v)
  (emit s (bitsdone + fld.size) (v <<< fld.size ||| field_value fld.size val)).map fld.ended

/-! ## Reading -/

/-- The octets a field reads from, at the start of a group the other way round. -/
def started : Threaded ℕ → Bytes × ℕ
  | .bits s bn => (s, bn)
  | .octets s =>
    (if fld.rev ∧ 1 < fld.tot_size then (s.take fld.tot_size).reverse ++ s.drop fld.tot_size else s, 0)

/-- `getfield`. -/
def getfield (s : Threaded ℕ) : Option (Threaded ℕ × ℕ) :=
  let (s, bn) := fld.started s
  let nb_bytes := (((fld.size + bn : ℕ) - 1 : ℤ) / 8 + 1).toNat
  let w := s.take nb_bytes
  if w.length < nb_bytes then none
  else
    let b := big w &&& (1 <<< (nb_bytes * 8 - bn) - 1)
    let b := b >>> (nb_bytes * 8 - fld.size - bn)
    let bn := bn + fld.size
    let s := s.drop (bn / 8)
    let bn := bn % 8
    some (if bn ≠ 0 then .bits s bn else .octets s, b)

end BitField

/-! ## Groups -/

/-- The octets of a list of fields, each with its value. -/
def build : List BitField → List ℤ → Threaded (ℕ × ℕ) → Option (Threaded (ℕ × ℕ))
  | fld :: fields, val :: vals, s => (fld.addfield s val).bind (build fields vals)
  | _, _, s => some s

/-- The values of a list of fields, and what they leave. -/
def dissect : List BitField → Threaded ℕ → Option (Threaded ℕ × List ℕ)
  | [], s => some (s, [])
  | fld :: fields, s =>
    (fld.getfield s).bind fun (s, val) => (dissect fields s).map fun (s, vals) => (s, val :: vals)

/-- A big-endian field. -/
def plain (size : ℕ) : BitField := BitField.init size 0 0

def big_endian (sizes : List ℕ) : List BitField := sizes.map plain

/-- The fields behind the first of a little-endian group of `n` octets: the last one says where it
ends. -/
def ending (n : ℕ) : List ℕ → List BitField
  | [] => []
  | [last] => [BitField.init last 0 (-n)]
  | size :: next :: sizes => plain size :: ending n (next :: sizes)

/-- A little-endian group: the first field says how many octets there are, and the last one. -/
def little_endian (sizes : List ℕ) : List BitField :=
  let n := sizes.sum / 8
  match sizes with
  | [] => []
  | [size] => [BitField.init size (-n) (-n)]
  | first :: next :: sizes => BitField.init first (-n) 0 :: ending n (next :: sizes)

/-- What is written of the values is read back as them, and nothing more is taken. -/
def RoundTrips (fields : List BitField) (vals : List ℤ) : Prop :=
  ∃ s, build fields vals (.octets []) = some (.octets s) ∧
    ∀ t, dissect fields (.octets (s ++ t)) =
      some (.octets t, List.zipWith (fun fld => field_value fld.size) fields vals)

/-! ## Written so far -/

theorem reverse_of_length_le_one {s : Bytes} (h : s.length ≤ 1) : s.reverse = s := by
  match s, h with
  | [], _ => rfl
  | [_], _ => rfl

/-- A value is cut to its field. -/
theorem field_value_lt (size : ℕ) (val : ℤ) : field_value size val < 2 ^ size := by
  have hpos : (0 : ℤ) < 2 ^ size := by positivity
  have hlt := Int.emod_lt_of_pos val hpos
  have hnonneg := Int.emod_nonneg val hpos.ne'
  unfold field_value
  zify
  rw [Int.toNat_of_nonneg hnonneg]
  exact hlt

/-- A digit in front of a number that has room behind it. -/
theorem digits_lt {a b size R : ℕ} (ha : a < 2 ^ size) (hb : b < 2 ^ R) :
    a * 2 ^ R + b < 2 ^ (size + R) := by
  rw [Nat.pow_add]
  calc a * 2 ^ R + b < (a + 1) * 2 ^ R := by
        rw [Nat.succ_mul]
        omega
    _ ≤ 2 ^ size * 2 ^ R := Nat.mul_le_mul_right _ ha

/-- A number's high digit and the rest of it. -/
theorem high_digit {a b R : ℕ} (hb : b < 2 ^ R) :
    (a * 2 ^ R + b) / 2 ^ R = a ∧ (a * 2 ^ R + b) % 2 ^ R = b := by
  constructor
  · rw [Nat.mul_comm, Nat.mul_add_div (Nat.two_pow_pos R), Nat.div_eq_of_lt hb, Nat.add_zero]
  · rw [Nat.mul_comm, Nat.mul_add_mod, Nat.mod_eq_of_lt hb]

/-- Emitting keeps the number and its bits. -/
theorem emit_eq {s : Bytes} {bitsdone v : ℕ} (hv : v < 2 ^ bitsdone) :
    ∃ s' n' v', emit s bitsdone v = some (s', n', v') ∧ n' < 8 ∧ v' < 2 ^ n' ∧
      8 * s'.length + n' = 8 * s.length + bitsdone ∧
      big s' * 2 ^ n' + v' = big s * 2 ^ bitsdone + v := by
  induction bitsdone using Nat.strong_induction_on generalizing s v with
  | _ bitsdone ih =>
    rw [emit]
    split
    · -- one octet goes out, and fewer bits are left to go on with
      rename_i hwhole
      obtain ⟨n, hn⟩ := Nat.exists_eq_add_of_le' hwhole
      have hhigh : v / 2 ^ n < 2 ^ 8 := by
        apply Nat.div_lt_of_lt_mul
        rwa [← Nat.pow_add, ← hn]
      obtain ⟨s', n', v', hemit, hlt, hv', hlen, hbig⟩ :=
        ih n (by omega) (s := s ++ [UInt8.ofNat (v / 2 ^ n)]) (Nat.mod_lt v (Nat.two_pow_pos n))
      refine ⟨s', n', v', ?_, hlt, hv', ?_, ?_⟩
      · rw [hn, Nat.add_sub_cancel, Nat.shiftRight_eq_div_pow, pack_B, if_pos hhigh, Nat.shiftLeft_eq,
          Nat.one_mul, Nat.and_two_pow_sub_one_eq_mod]
        exact hemit
      · rw [hlen, List.length_append, List.length_singleton]
        omega
      · rw [hbig, big_concat, UInt8.toNat_ofNat_of_lt' hhigh, hn, Nat.pow_add]
        calc (big s * 2 ^ 8 + v / 2 ^ n) * 2 ^ n + v % 2 ^ n
            = big s * (2 ^ n * 2 ^ 8) + (2 ^ n * (v / 2 ^ n) + v % 2 ^ n) := by ring
          _ = big s * (2 ^ n * 2 ^ 8) + v := by rw [Nat.div_add_mod]
    · exact ⟨s, bitsdone, v, rfl, by omega, hv, rfl, rfl⟩

/-- What has been written spells `N` in `L` bits. -/
def Holds : Threaded (ℕ × ℕ) → ℕ → ℕ → Prop
  | .octets s, L, N => 8 * s.length = L ∧ big s = N
  | .bits s (bitsdone, v), L, N =>
    0 < bitsdone ∧ bitsdone < 8 ∧ v < 2 ^ bitsdone ∧ 8 * s.length + bitsdone = L ∧
      big s * 2 ^ bitsdone + v = N

/-- A field turns the octets of its group round where it is the end of one. -/
def BitField.Closes (fld : BitField) : Prop := fld.rev ∧ 1 < fld.end_tot_size

def BitField.Opens (fld : BitField) : Prop := fld.rev ∧ 1 < fld.tot_size

variable {fld : BitField} {L N : ℕ}

/-- What a field hands to `ended` spells the number with the field behind it. -/
theorem addfield_eq (fld : BitField) {s : Threaded (ℕ × ℕ)} (h : Holds s L N) (val : ℤ) :
    ∃ s' n' v', fld.addfield s val = some (fld.ended (s', n', v')) ∧ n' < 8 ∧ v' < 2 ^ n' ∧
      8 * s'.length + n' = L + fld.size ∧
      big s' * 2 ^ n' + v' = N * 2 ^ fld.size + field_value fld.size val := by
  have hval := field_value_lt fld.size val
  -- octets are the state in which no bit is kept
  obtain ⟨s, bitsdone, v, hstate, hv, hlen, hbig⟩ : ∃ o n v, (match s with
      | .octets s => (s, 0, 0)
      | .bits s (bitsdone, v) => (s, bitsdone, v)) = (o, n, v) ∧ v < 2 ^ n ∧
        8 * o.length + n = L ∧ big o * 2 ^ n + v = N := by
    match s, h with
    | .octets s, ⟨hlen, hbig⟩ => exact ⟨s, 0, 0, rfl, Nat.one_pos, hlen, by rw [← hbig]; omega⟩
    | .bits s (n, v), ⟨_, _, hv, hlen, hbig⟩ => exact ⟨s, n, v, rfl, hv, hlen, hbig⟩
  have hor : v <<< fld.size ||| field_value fld.size val = v * 2 ^ fld.size + field_value fld.size val := by
    rw [← Nat.shiftLeft_add_eq_or_of_lt hval, Nat.shiftLeft_eq]
  have hroom : v * 2 ^ fld.size + field_value fld.size val < 2 ^ (bitsdone + fld.size) :=
    digits_lt hv hval
  obtain ⟨s', n', v', hemit, hlt, hv', hlen', hbig'⟩ := emit_eq (s := s) hroom
  refine ⟨s', n', v', ?_, hlt, hv', by omega, ?_⟩
  · unfold BitField.addfield
    rw [hstate]
    dsimp only
    rw [hor, hemit]
    rfl
  · rw [hbig', ← hbig, Nat.pow_add]
    ring

/-- A field that closes nothing adds its bits. -/
theorem addfield_holds (fld : BitField) {s : Threaded (ℕ × ℕ)} (h : Holds s L N) (val : ℤ)
    (hopen : (L + fld.size) % 8 = 0 → ¬ fld.Closes) :
    ∃ s', fld.addfield s val = some s' ∧
      Holds s' (L + fld.size) (N * 2 ^ fld.size + field_value fld.size val) := by
  obtain ⟨s', n', v', hadd, hlt, hv', hlen, hbig⟩ := addfield_eq fld h val
  refine ⟨_, hadd, ?_⟩
  unfold BitField.ended
  dsimp only
  by_cases hn : n' = 0
  · subst hn
    have hnot : ¬ (fld.rev = true ∧ 1 < fld.end_tot_size) := hopen (by omega)
    rw [if_neg (not_not_intro rfl), if_neg hnot]
    exact ⟨by omega, by omega⟩
  · rw [if_pos hn]
    exact ⟨by omega, hlt, hv', hlen, hbig⟩

/-- A number of whole octets is in octets. -/
theorem Holds.octets {s : Threaded (ℕ × ℕ)} (h : Holds s L N) (hL : L % 8 = 0) :
    ∃ o, s = .octets o ∧ 8 * o.length = L ∧ big o = N := by
  match s, h with
  | .octets o, ⟨hlen, hbig⟩ => exact ⟨o, rfl, hlen, hbig⟩
  | .bits s (n, v), ⟨hpos, hlt, _, hlen, _⟩ => omega

/-- A field with a group size that ends on a whole octet turns that many octets round. -/
theorem addfield_closes (fld : BitField) {s : Threaded (ℕ × ℕ)} (h : Holds s L N) (val : ℤ)
    (hL : (L + fld.size) % 8 = 0) (hrev : fld.rev = true) :
    ∃ o, fld.addfield s val = some (.octets (o.take (o.length - fld.end_tot_size) ++
        (o.drop (o.length - fld.end_tot_size)).reverse)) ∧
      8 * o.length = L + fld.size ∧ big o = N * 2 ^ fld.size + field_value fld.size val := by
  obtain ⟨s', n', v', hadd, hlt, hv', hlen, hbig⟩ := addfield_eq fld h val
  -- the bits so far fill whole octets, so `ended` is in its second branch or its third
  have hn : n' = 0 := by omega
  subst hn
  refine ⟨s', ?_, by omega, by omega⟩
  rw [hadd]
  unfold BitField.ended
  dsimp only
  rw [if_neg (not_not_intro rfl)]
  by_cases hmany : 1 < fld.end_tot_size
  · rw [if_pos ⟨hrev, hmany⟩]
  · -- the source leaves one octet as it is, which is what turning it round does
    rw [if_neg (fun hc => hmany hc.2), reverse_of_length_le_one, List.take_append_drop]
    rw [List.length_drop]
    omega

/-! ## Left to read -/

/-- What is left to read spells `M` in `R` bits. -/
def Left : Threaded ℕ → ℕ → ℕ → Prop
  | .octets s, R, M => 8 * s.length = R ∧ big s = M
  | .bits s bn, R, M => 0 < bn ∧ bn < 8 ∧ 8 * s.length = R + bn ∧ big s % 2 ^ R = M

variable {R M : ℕ}

/-- The middle bits of a number, cut at the octets first. -/
theorem middle_bits (x a size c : ℕ) :
    x / 2 ^ a % 2 ^ (size + c) / 2 ^ c = x % 2 ^ (size + (a + c)) / 2 ^ (a + c) := by
  have hpow : 2 ^ (size + (a + c)) = 2 ^ a * 2 ^ (size + c) := by
    rw [← Nat.pow_add]
    congr 1
    omega
  rw [← Nat.mod_mul_right_div_self, Nat.div_div_eq_div_mul, ← hpow, ← Nat.pow_add]

/-- A field reads the high digit of what is left, from the octets it has turned round. -/
theorem getfield_eq {s : Threaded ℕ} {o : Bytes} {bn : ℕ} (hstart : fld.started s = (o, bn))
    (hbn : bn < 8) (hlen : 8 * o.length = fld.size + R + bn) :
    ∃ s', fld.getfield s = some (s', big o % 2 ^ (fld.size + R) / 2 ^ R) ∧
      Left s' R (big o % 2 ^ R) := by
  obtain ⟨nb, hnb⟩ : ∃ nb, nb = (((fld.size + bn : ℕ) - 1 : ℤ) / 8 + 1).toNat := ⟨_, rfl⟩
  have hnb8 : 8 * nb < fld.size + bn + 8 ∧ fld.size + bn ≤ 8 * nb := by omega
  have hfit : nb ≤ o.length := by omega
  -- the mask cuts off the bits already read, the shift those of the fields behind
  have hvalue : (big (o.take nb) &&& (1 <<< (nb * 8 - bn) - 1)) >>> (nb * 8 - fld.size - bn)
      = big o % 2 ^ (fld.size + R) / 2 ^ R := by
    have hhigh : nb * 8 - bn = fld.size + (nb * 8 - fld.size - bn) := by omega
    have hR : R = 8 * (o.length - nb) + (nb * 8 - fld.size - bn) := by omega
    rw [Nat.shiftLeft_eq, Nat.one_mul, Nat.and_two_pow_sub_one_eq_mod, Nat.shiftRight_eq_div_pow,
      big_take, hhigh, middle_bits, ← hR]
  refine ⟨if (bn + fld.size) % 8 ≠ 0 then .bits (o.drop ((bn + fld.size) / 8)) ((bn + fld.size) % 8)
    else .octets (o.drop ((bn + fld.size) / 8)), ?_, ?_⟩
  · unfold BitField.getfield
    rw [hstart]
    dsimp only
    rw [← hnb, List.length_take, Nat.min_eq_left hfit, if_neg (lt_irrefl nb), hvalue]
  · have hrest := big_drop o ((bn + fld.size) / 8)
    have hlendrop := List.length_drop (i := (bn + fld.size) / 8) (l := o)
    -- the last octet stays in front of the next field unless this one took all of it
    by_cases hwhole : (bn + fld.size) % 8 = 0
    · have hR : 8 * (o.length - (bn + fld.size) / 8) = R := by omega
      rw [if_neg (not_not_intro hwhole)]
      rw [hR] at hrest
      exact ⟨by omega, hrest⟩
    · rw [if_pos hwhole]
      have hR : 8 * (o.length - (bn + fld.size) / 8) = R + (bn + fld.size) % 8 := by omega
      refine ⟨by omega, Nat.mod_lt _ (by omega), by omega, ?_⟩
      rw [hrest, hR, Nat.mod_mod_of_dvd _ (pow_dvd_pow 2 (Nat.le_add_right _ _))]

/-- The same where the field starts on a whole octet. -/
theorem getfield_octets {s : Threaded ℕ} {o : Bytes} (hstart : fld.started s = (o, 0))
    (hlen : 8 * o.length = fld.size + R) :
    ∃ s', fld.getfield s = some (s', big o / 2 ^ R) ∧ Left s' R (big o % 2 ^ R) := by
  obtain ⟨s', hget, hleft⟩ := getfield_eq hstart (by omega) hlen
  have hlt := big_lt o
  rw [hlen] at hlt
  rw [Nat.mod_eq_of_lt hlt] at hget
  exact ⟨s', hget, hleft⟩

/-- A field that opens nothing reads the high digit of what is left. -/
theorem getfield_left (fld : BitField) {s : Threaded ℕ} (h : Left s (fld.size + R) M)
    (hopen : (∃ o, s = .octets o) → ¬ fld.Opens) :
    ∃ s', fld.getfield s = some (s', M / 2 ^ R) ∧ Left s' R (M % 2 ^ R) := by
  match s, h with
  | .octets o, ⟨hlen, hbig⟩ =>
    have hstart : fld.started (.octets o) = (o, 0) := by
      have hnot : ¬ (fld.rev = true ∧ 1 < fld.tot_size) := hopen ⟨o, rfl⟩
      unfold BitField.started
      dsimp only
      rw [if_neg hnot]
    rw [← hbig]
    exact getfield_octets hstart hlen
  | .bits o n, ⟨_, hlt, hlen, hbig⟩ =>
    have hstart : fld.started (.bits o n) = (o, n) := rfl
    obtain ⟨s', hget, hleft⟩ := getfield_eq hstart hlt hlen
    refine ⟨s', by rw [hget, hbig], ?_⟩
    rw [← hbig, Nat.mod_mod_of_dvd _ (pow_dvd_pow 2 (Nat.le_add_left _ _))]
    exact hleft

/-- What is left is `t` when it is as many bits and spells the same. -/
theorem Left.octets {s : Threaded ℕ} {t : Bytes} (h : Left s (8 * t.length) (big t)) : s = .octets t := by
  match s, h with
  | .octets o, ⟨hlen, hbig⟩ => rw [big_inj (by omega) hbig]
  | .bits o n, ⟨hpos, hlt, hlen, _⟩ => omega

/-! ## Fields that turn nothing round -/

/-- One field, then the others. -/
theorem dissect_cons {fields : List BitField} {s s' s'' : Threaded ℕ} {val : ℕ} {vals : List ℕ}
    (hget : fld.getfield s = some (s', val)) (h : dissect fields s' = some (s'', vals)) :
    dissect (fld :: fields) s = some (s'', val :: vals) := by
  rw [dissect, hget, Option.bind_some]
  dsimp only
  rw [h]
  rfl

/-- Fields in a row are dissected one run behind the other. -/
theorem dissect_append {fields others : List BitField} {s s' s'' : Threaded ℕ} {vals more : List ℕ}
    (h : dissect fields s = some (s', vals)) (hmore : dissect others s' = some (s'', more)) :
    dissect (fields ++ others) s = some (s'', vals ++ more) := by
  induction fields generalizing s vals with
  | nil =>
    cases h
    exact hmore
  | cons fld fields ih =>
    rw [dissect, Option.bind_eq_some_iff] at h
    obtain ⟨⟨s₁, val⟩, hget, hrest⟩ := h
    rw [Option.map_eq_some_iff] at hrest
    obtain ⟨⟨s₂, rest⟩, hrest, heq⟩ := hrest
    cases heq
    exact dissect_cons hget (ih hrest)

/-- And built one run behind the other. -/
theorem build_append {fields others : List BitField} {vals more : List ℤ}
    (hlen : vals.length = fields.length) (s : Threaded (ℕ × ℕ)) :
    build (fields ++ others) (vals ++ more) s = (build fields vals s).bind (build others more) := by
  induction fields generalizing vals s with
  | nil =>
    rw [List.length_eq_zero_iff.1 hlen]
    rfl
  | cons fld fields ih =>
    match vals, hlen with
    | val :: vals, hlen =>
      rw [List.cons_append, List.cons_append, build, build]
      cases fld.addfield s val with
      | none => rfl
      | some s' => exact ih (Nat.succ.inj hlen) s'

/-- The number a list of values spells. -/
def packed : List ℕ → List ℤ → ℕ
  | size :: sizes, val :: vals => field_value size val * 2 ^ sizes.sum + packed sizes vals
  | _, _ => 0

theorem packed_lt (sizes : List ℕ) (vals : List ℤ) : packed sizes vals < 2 ^ sizes.sum := by
  induction sizes generalizing vals with
  | nil => exact Nat.two_pow_pos _
  | cons size sizes ih =>
    match vals with
    | [] => exact Nat.two_pow_pos _
    | val :: vals =>
      rw [packed, List.sum_cons]
      exact digits_lt (field_value_lt size val) (ih vals)

theorem plain_size (size : ℕ) : (plain size).size = size := rfl

theorem plain_rev (size : ℕ) : (plain size).rev = false := by
  unfold plain BitField.init
  simp

theorem not_closes_plain (size : ℕ) : ¬ (plain size).Closes := by
  rintro ⟨hrev, -⟩
  rw [plain_rev] at hrev
  cases hrev

theorem not_opens_plain (size : ℕ) : ¬ (plain size).Opens := by
  rintro ⟨hrev, -⟩
  rw [plain_rev] at hrev
  cases hrev

/-- The fields write the number their values spell behind what is there. -/
theorem build_plain {sizes : List ℕ} {vals : List ℤ} (hlen : vals.length = sizes.length)
    {s : Threaded (ℕ × ℕ)} (h : Holds s L N) :
    ∃ s', build (sizes.map plain) vals s = some s' ∧
      Holds s' (L + sizes.sum) (N * 2 ^ sizes.sum + packed sizes vals) := by
  induction sizes generalizing vals s L N with
  | nil =>
    refine ⟨s, rfl, ?_⟩
    rw [List.sum_nil, packed, Nat.pow_zero, Nat.mul_one, Nat.add_zero, Nat.add_zero]
    exact h
    simp
  | cons size sizes ih =>
    match vals, hlen with
    | val :: vals, hlen =>
      -- The field's bits go behind those collected, and nothing is flushed before the last.
      obtain ⟨s', hadd, hs'⟩ := addfield_holds (plain size) h val fun _ => not_closes_plain size
      obtain ⟨s'', hbuild, hs''⟩ := ih (Nat.succ.inj hlen) hs'
      refine ⟨s'', ?_, ?_⟩
      · rw [List.map_cons, build, hadd]
        exact hbuild
      · rw [List.sum_cons, packed, ← Nat.add_assoc, Nat.pow_add]
        rw [plain_size] at hs''
        -- shifting in one field after another is shifting in all at once
        have hnumber : N * (2 ^ size * 2 ^ sizes.sum) +
            (field_value size val * 2 ^ sizes.sum + packed sizes vals) =
            (N * 2 ^ size + field_value size val) * 2 ^ sizes.sum + packed sizes vals := by ring
        rw [hnumber]
        exact hs''

/-- The fields read their values off a number that starts with what they spell. -/
theorem dissect_plain {sizes : List ℕ} {vals : List ℤ} (hlen : vals.length = sizes.length)
    {s : Threaded ℕ} (hM : M < 2 ^ R) (h : Left s (sizes.sum + R) (packed sizes vals * 2 ^ R + M)) :
    ∃ s', dissect (sizes.map plain) s = some (s', List.zipWith field_value sizes vals) ∧
      Left s' R M := by
  induction sizes generalizing vals s with
  | nil =>
    match vals, hlen with
    | [], _ =>
      rw [packed, List.sum_nil, Nat.zero_mul, Nat.zero_add, Nat.zero_add] at h
      · exact ⟨s, rfl, h⟩
      · simp
  | cons size sizes ih =>
    match vals, hlen with
    | val :: vals, hlen =>
      -- The field is the topmost digit of what is left.
      have hrest : packed sizes vals * 2 ^ R + M < 2 ^ (sizes.sum + R) :=
        digits_lt (packed_lt sizes vals) hM
      have hnumber : packed (size :: sizes) (val :: vals) * 2 ^ R + M =
          field_value size val * 2 ^ (sizes.sum + R) + (packed sizes vals * 2 ^ R + M) := by
        rw [packed, Nat.pow_add]
        ring
      obtain ⟨hhigh, hlow⟩ := high_digit (a := field_value size val) hrest
      rw [hnumber, List.sum_cons, Nat.add_assoc] at h
      obtain ⟨s', hget, hleft⟩ := getfield_left (plain size) h fun _ => not_opens_plain size
      rw [hhigh] at hget
      rw [hlow] at hleft
      obtain ⟨s'', hdissect, hs''⟩ := ih (Nat.succ.inj hlen) hleft
      exact ⟨s'', dissect_cons hget hdissect, hs''⟩

/-! ## The ends of a little-endian group -/

/-- A field's value, its octets the other way round where they are whole. -/
def turned (size v : ℕ) : ℕ := if size % 8 = 0 then big (digits (size / 8) v) else v

theorem big_reverse {o : Bytes} {size : ℕ} (h : 8 * o.length = size) :
    big o.reverse = turned size (big o) := by
  have hcount : size / 8 = o.reverse.length := by
    rw [List.length_reverse]
    omega
  unfold turned
  rw [if_pos (by omega), hcount]
  exact congrArg big (digits_value o.reverse).symm

theorem turned_of_not_whole {size v : ℕ} (h : size % 8 ≠ 0) : turned size v = v := if_neg h

/-- A turned number is no longer. -/
theorem turned_lt {size v : ℕ} (hv : v < 2 ^ size) : turned size v < 2 ^ size := by
  unfold turned
  split
  · rename_i hwhole
    have hlt := big_lt (digits (size / 8) v)
    rwa [length_digits, Nat.mul_div_cancel' (Nat.dvd_of_mod_eq_zero hwhole)] at hlt
  · exact hv

variable {n : ℕ}

theorem init_first (size n : ℕ) (e : ℤ) (hsize : size ≤ 8 * n) :
    (BitField.init size (-n) e).tot_size = n := by
  unfold BitField.init
  dsimp only
  split
  · rw [Int.natAbs_natCast]
    omega
  · rw [Int.natAbs_neg, Int.natAbs_natCast]

/-- So does the last one. -/
theorem init_last (size n : ℕ) (e : ℤ) (hsize : size ≤ 8 * n) :
    (BitField.init size e (-n)).end_tot_size = n := by
  unfold BitField.init
  dsimp only
  split
  · rw [Int.natAbs_natCast]
    omega
  · rw [Int.natAbs_neg, Int.natAbs_natCast]

/-- Both are marked as turned. -/
theorem init_rev (size : ℤ) {n : ℕ} (hn : 0 < n) (e : ℤ) :
    (BitField.init size (-n) e).rev = true ∧ (BitField.init size e (-n)).rev = true := by
  unfold BitField.init
  constructor
  · exact decide_eq_true (Or.inr (Or.inl (by omega)))
  · exact decide_eq_true (Or.inr (Or.inr (by omega)))

/-- The first field of several writes its value turned where it ends on a whole octet. -/
theorem first_added {size : ℕ} (val : ℤ) (hsize : size ≤ 8 * n) :
    ∃ s', (BitField.init size (-n) 0).addfield (.octets []) val = some s' ∧
      Holds s' size (turned size (field_value size val)) := by
  obtain ⟨fld, hfld⟩ : ∃ fld, fld = BitField.init size (-n) 0 := ⟨_, rfl⟩
  have hsz : fld.size = size := by
    rw [hfld]
    rfl
  have hend : fld.end_tot_size = size / 8 := by
    rw [hfld]
    rfl
  have hnothing : Holds (.octets []) 0 0 := ⟨rfl, rfl⟩
  rw [← hfld]
  by_cases hwhole : size % 8 = 0
  · rcases Nat.eq_zero_or_pos n with hn | hn
    · -- a group of no octets: `-0` is not negative, so the field is a big-endian one of no bits
      have hzero : size = 0 := by omega
      have hnot : ¬ fld.Closes := by
        rintro ⟨-, hmany⟩
        omega
      obtain ⟨s', hadd, hs'⟩ := addfield_holds fld hnothing val fun _ => hnot
      refine ⟨s', hadd, ?_⟩
      have hval := field_value_lt size val
      have hturned := turned_lt hval
      rw [hsz] at hs'
      rw [hzero] at hs' hval hturned ⊢
      have hsame : turned 0 (field_value 0 val) = 0 * 2 ^ 0 + field_value 0 val := by omega
      rw [hsame]
      exact hs'
    · have hrev : fld.rev = true := by
        rw [hfld]
        exact (init_rev size hn 0).1
      obtain ⟨o, hadd, hlen, hbig⟩ := addfield_closes fld hnothing val (by omega) hrev
      -- not given an end, it takes its own octets for one, though the group goes on behind it
      have hall : o.length - fld.end_tot_size = 0 := by omega
      rw [hall, List.take_zero, List.drop_zero, List.nil_append] at hadd
      refine ⟨_, hadd, ?_, ?_⟩
      · rw [List.length_reverse]
        omega
      · rw [big_reverse (by omega), hbig, hsz, Nat.zero_mul, Nat.zero_add, Nat.zero_add]
  · obtain ⟨s', hadd, hs'⟩ := addfield_holds fld hnothing val fun h => by omega
    refine ⟨s', hadd, ?_⟩
    rw [hsz, Nat.zero_add, Nat.zero_mul, Nat.zero_add] at hs'
    rw [turned_of_not_whole hwhole]
    exact hs'

/-- The last field turns the whole group round. -/
theorem last_added {s : Threaded (ℕ × ℕ)} {size : ℕ} (e val : ℤ) (h : Holds s L N)
    (hn : L + size = 8 * n) :
    ∃ o, (BitField.init size e (-n)).addfield s val = some (.octets o.reverse) ∧ o.length = n ∧
      big o = N * 2 ^ size + field_value size val := by
  obtain ⟨fld, hfld⟩ : ∃ fld, fld = BitField.init size e (-n) := ⟨_, rfl⟩
  have hsz : fld.size = size := by
    rw [hfld]
    rfl
  have hend : fld.end_tot_size = n := by
    rw [hfld]
    exact init_last size n e (by omega)
  rw [← hfld]
  rcases Nat.eq_zero_or_pos n with hzero | hpos
  · -- no octets to turn round
    have hnot : ¬ fld.Closes := by
      rintro ⟨-, hmany⟩
      omega
    obtain ⟨s', hadd, hs'⟩ := addfield_holds fld h val fun _ => hnot
    rw [hsz] at hs'
    obtain ⟨o, ho, hlen, hbig⟩ := hs'.octets (by omega)
    refine ⟨o, ?_, by omega, hbig⟩
    rw [hadd, ho, reverse_of_length_le_one (by omega)]
  · have hrev : fld.rev = true := by
      rw [hfld]
      exact (init_rev size hpos e).2
    obtain ⟨o, hadd, hlen, hbig⟩ := addfield_closes fld h val (by omega) hrev
    have hall : o.length - fld.end_tot_size = 0 := by omega
    rw [hall, List.take_zero, List.drop_zero, List.nil_append] at hadd
    refine ⟨o, hadd, by omega, ?_⟩
    rw [hbig, hsz]

/-- The first field turns the group back before it reads. -/
theorem first_read {size : ℕ} {o t : Bytes} {e : ℤ} (ho : o.length = n) (hsize : size ≤ 8 * n)
    (hR : 8 * (n + t.length) = size + R) :
    ∃ s', (BitField.init size (-n) e).getfield (.octets (o.reverse ++ t)) =
        some (s', big (o ++ t) / 2 ^ R) ∧
      Left s' R (big (o ++ t) % 2 ^ R) := by
  have hstart : (BitField.init size (-n) e).started (.octets (o.reverse ++ t)) = (o ++ t, 0) := by
    unfold BitField.started
    dsimp only
    rw [init_first size n e hsize]
    rcases Nat.lt_or_ge 1 n with hmany | hone
    · have hlen : o.reverse.length = n := by rw [List.length_reverse, ho]
      rw [if_pos ⟨(init_rev size (by omega) e).1, hmany⟩, List.take_left' hlen, List.drop_left' hlen,
        List.reverse_reverse]
    · rw [if_neg (fun h => by omega), reverse_of_length_le_one (by omega)]
  have hlen : 8 * (o ++ t).length = size + R := by rw [List.length_append, ho, hR]
  exact getfield_octets hstart hlen

/-- The last field of several reads its value turned where it starts on a whole octet. -/
theorem last_read {s : Threaded ℕ} {size v : ℕ} {t : Bytes} (hsize : size ≤ 8 * n)
    (h : Left s (size + 8 * t.length) (v * 2 ^ (8 * t.length) + big t)) :
    (BitField.init size 0 (-n)).getfield s = some (.octets t, turned size v) := by
  have ht := big_lt t
  obtain ⟨hhigh, hlow⟩ := high_digit (a := v) ht
  match s, h with
  | .octets o, ⟨hlen, hbig⟩ =>
    -- not given a start, it takes its own octets for one and turns them round before it reads
    have hstart : (BitField.init size 0 (-n)).started (.octets o) =
        ((o.take (size / 8)).reverse ++ o.drop (size / 8), 0) := by
      have htot : (BitField.init size 0 (-n)).tot_size = size / 8 := rfl
      unfold BitField.started
      dsimp only
      rw [htot]
      split
      · rfl
      · rename_i hnot
        have hfew : size / 8 ≤ 1 := by
          by_contra hmany
          exact hnot ⟨(init_rev size (by omega) 0).2, by omega⟩
        rw [reverse_of_length_le_one, List.take_append_drop]
        rw [List.length_take]
        omega
    have htake := big_take o (size / 8)
    have hdrop := big_drop o (size / 8)
    have hk : 8 * (o.length - size / 8) = 8 * t.length := by omega
    rw [hk, hbig] at htake hdrop
    rw [hhigh] at htake
    rw [hlow] at hdrop
    have hread : big ((o.take (size / 8)).reverse ++ o.drop (size / 8)) =
        turned size v * 2 ^ (8 * t.length) + big t := by
      have hcount : 8 * (o.take (size / 8)).length = size := by
        rw [List.length_take]
        omega
      rw [big_append, List.length_drop, hk, big_reverse hcount, htake, hdrop]
    have hcount : 8 * ((o.take (size / 8)).reverse ++ o.drop (size / 8)).length = size + 8 * t.length := by
      rw [List.length_append, List.length_reverse, List.length_take, List.length_drop]
      omega
    obtain ⟨s', hget, hleft⟩ := getfield_octets hstart hcount
    obtain ⟨hhigh', hlow'⟩ := high_digit (a := turned size v) ht
    rw [hread, hlow'] at hleft
    rw [hread, hhigh'] at hget
    rw [hget, hleft.octets]
  | .bits o k, hleft =>
    -- in the middle of an octet nothing is turned
    have hpart : size % 8 ≠ 0 := by
      obtain ⟨hpos, hlt, hlen, -⟩ := hleft
      omega
    obtain ⟨s', hget, hs'⟩ := getfield_left (BitField.init size 0 (-n)) hleft (by
      rintro ⟨o', ho'⟩
      cases ho')
    rw [hhigh] at hget
    rw [hlow] at hs'
    rw [hget, hs'.octets, turned_of_not_whole hpart]

/-! ## Groups of any fields -/

/-- The fields behind the first one. -/
theorem ending_append (n : ℕ) (mids : List ℕ) (last : ℕ) :
    ending n (mids ++ [last]) = mids.map plain ++ [BitField.init last 0 (-n)] := by
  induction mids with
  | nil => rfl
  | cons size mids ih =>
    match mids, ih with
    | [], _ => rfl
    | next :: mids, ih => exact congrArg (plain size :: ·) ih

theorem little_endian_several (first : ℕ) (mids : List ℕ) (last : ℕ) :
    little_endian (first :: (mids ++ [last])) =
      BitField.init first (-((first :: (mids ++ [last])).sum / 8 : ℕ)) 0 ::
        (mids.map plain ++ [BitField.init last 0 (-((first :: (mids ++ [last])).sum / 8 : ℕ))]) := by
  rw [← ending_append]
  match mids with
  | [] => rfl
  | _ :: _ => rfl

theorem big_endian_size (sizes : List ℕ) : (big_endian sizes).map BitField.size = sizes := by
  unfold big_endian
  rw [List.map_map]
  exact List.map_id' sizes

theorem little_endian_size (sizes : List ℕ) : (little_endian sizes).map BitField.size = sizes := by
  rcases sizes with - | ⟨first, rest⟩
  · rfl
  rcases List.eq_nil_or_concat rest with hrest | ⟨mids, last, hrest⟩
  · rw [hrest]
    rfl
  · have hmids := big_endian_size mids
    unfold big_endian at hmids
    rw [hrest, List.concat_eq_append, little_endian_several, List.map_cons, List.map_append, hmids]
    rfl

theorem round_trips_iff {fields : List BitField} {sizes : List ℕ} {vals : List ℤ}
    (hsizes : fields.map BitField.size = sizes) : RoundTrips fields vals ↔
      ∃ s, build fields vals (.octets []) = some (.octets s) ∧
        ∀ t, dissect fields (.octets (s ++ t)) = some (.octets t, List.zipWith field_value sizes vals) := by
  unfold RoundTrips
  rw [← hsizes, List.zipWith_map_left]

/-- Big-endian fields round-trip, whatever the sizes. -/
theorem big_endian_round_trips {sizes : List ℕ} {vals : List ℤ} (hlen : vals.length = sizes.length)
    (hsum : 8 ∣ sizes.sum) : RoundTrips (big_endian sizes) vals := by
  have hnothing : Holds (.octets []) 0 0 := ⟨rfl, rfl⟩
  obtain ⟨s', hbuild, hs'⟩ := build_plain hlen hnothing
  obtain ⟨o, ho, hlength, hbig⟩ := hs'.octets (by omega)
  rw [round_trips_iff (big_endian_size sizes)]
  refine ⟨o, ho ▸ hbuild, ?_⟩
  intro t
  have hleft : Left (.octets (o ++ t)) (sizes.sum + 8 * t.length)
      (packed sizes vals * 2 ^ (8 * t.length) + big t) := by
    constructor
    · rw [List.length_append]
      omega
    · rw [big_append, hbig, Nat.zero_mul, Nat.zero_add]
  obtain ⟨s'', hdissect, hs''⟩ := dissect_plain hlen (big_lt t) hleft
  rw [← hs''.octets]
  exact hdissect

/-- **What a little-endian group of several fields reads as**: the first value and the last turned,
those between as they are. -/
theorem little_endian_read (first last : ℕ) {mids : List ℕ} (val last_val : ℤ) {vals : List ℤ}
    (hlen : vals.length = mids.length) (hsum : 8 ∣ (first :: (mids ++ [last])).sum) :
    ∃ s, build (little_endian (first :: (mids ++ [last]))) (val :: (vals ++ [last_val])) (.octets []) =
        some (.octets s) ∧
      ∀ t, dissect (little_endian (first :: (mids ++ [last]))) (.octets (s ++ t)) =
        some (.octets t, turned first (field_value first val) ::
          (List.zipWith field_value mids vals ++ [turned last (field_value last last_val)])) := by
  obtain ⟨n, hn⟩ : ∃ n, n = (first :: (mids ++ [last])).sum / 8 := ⟨_, rfl⟩
  have htotal : first + mids.sum + last = 8 * n := by
    rw [List.sum_cons, List.sum_append, List.sum_singleton] at hn hsum
    omega
  rw [little_endian_several, ← hn]
  have hturned := turned_lt (field_value_lt first val)
  generalize hv₀ : turned first (field_value first val) = v₀ at hturned ⊢
  obtain ⟨s₁, hadd, hs₁⟩ := first_added val (show first ≤ 8 * n by omega)
  rw [hv₀] at hs₁
  obtain ⟨s₂, hbuild, hs₂⟩ := build_plain hlen hs₁
  obtain ⟨o, hclose, ho, hbig⟩ := last_added 0 last_val hs₂ htotal
  refine ⟨o.reverse, ?_, ?_⟩
  · rw [build, hadd, Option.bind_some, build_append (by rw [hlen, List.length_map]), hbuild,
      Option.bind_some, build, hclose]
    rfl
  · intro t
    have hlt := big_lt t
    have hrest : field_value last last_val * 2 ^ (8 * t.length) + big t < 2 ^ (last + 8 * t.length) :=
      digits_lt (field_value_lt last last_val) hlt
    have hbehind : packed mids vals * 2 ^ (last + 8 * t.length) +
        (field_value last last_val * 2 ^ (8 * t.length) + big t) < 2 ^ (mids.sum + (last + 8 * t.length)) :=
      digits_lt (packed_lt mids vals) hrest
    -- turned back, the octets spell the digits that were written: the first value's, those between,
    -- the last value's, and `t` behind them
    obtain ⟨s₁', hget, hs₁'⟩ := first_read (t := t) (R := mids.sum + (last + 8 * t.length)) (e := 0) ho
      (show first ≤ 8 * n by omega) (by omega)
    have hnumber : big (o ++ t) = v₀ * 2 ^ (mids.sum + (last + 8 * t.length)) +
        (packed mids vals * 2 ^ (last + 8 * t.length) +
          (field_value last last_val * 2 ^ (8 * t.length) + big t)) := by
      rw [big_append, hbig, Nat.pow_add, Nat.pow_add]
      ring
    obtain ⟨hhigh, hlow⟩ := high_digit (a := v₀) hbehind
    rw [hnumber, hhigh] at hget
    rw [hnumber, hlow] at hs₁'
    obtain ⟨s₂', hdissect, hs₂'⟩ := dissect_plain hlen hrest hs₁'
    have hlast := last_read (show last ≤ 8 * n by omega) hs₂'
    exact dissect_cons hget (dissect_append hdissect (dissect_cons hlast rfl))

/-- One field that is both ends. -/
theorem little_endian_alone {size : ℕ} (val : ℤ) (hsum : 8 ∣ size) :
    RoundTrips (little_endian [size]) [val] := by
  obtain ⟨n, hn⟩ : ∃ n, n = [size].sum / 8 := ⟨_, rfl⟩
  have htotal : 0 + size = 8 * n := by
    rw [List.sum_singleton] at hn
    omega
  have hnothing : Holds (.octets []) 0 0 := ⟨rfl, rfl⟩
  obtain ⟨o, hclose, ho, hbig⟩ := last_added (-n) val hnothing htotal
  have hfields : little_endian [size] = [BitField.init size (-n) (-n)] := by
    rw [hn]
    rfl
  rw [round_trips_iff (little_endian_size [size]), hfields]
  refine ⟨o.reverse, ?_, ?_⟩
  · rw [build, hclose]
    rfl
  -- The octets come back reversed, and the one field takes all of them.
  · intro t
    obtain ⟨s', hget, hs'⟩ := first_read (t := t) (R := 8 * t.length) (e := -n) ho
      (show size ≤ 8 * n by omega) (by omega)
    obtain ⟨hhigh, hlow⟩ := high_digit (a := field_value size val) (big_lt t)
    rw [big_append, hbig, Nat.zero_mul, Nat.zero_add, hhigh] at hget
    rw [big_append, hbig, Nat.zero_mul, Nat.zero_add, hlow] at hs'
    rw [hs'.octets] at hget
    exact dissect_cons hget rfl

/-! ## Values that read the same from either end -/

/-- A field of whole octets whose value has the same octets in either order. -/
def Mirrored (size : ℕ) (val : ℤ) : Prop :=
  size % 8 = 0 → (digits (size / 8) (field_value size val)).reverse = digits (size / 8) (field_value size val)

/-- A value survives the turning exactly when it reads alike from both ends. -/
theorem turned_eq_iff (size : ℕ) (val : ℤ) :
    turned size (field_value size val) = field_value size val ↔ Mirrored size val := by
  unfold turned Mirrored
  by_cases hwhole : size % 8 = 0
  · have hval := field_value_lt size val
    have hdigits := value_digits_of_lt (n := size / 8) (v := field_value size val) (by
      rwa [Nat.mul_div_cancel' (Nat.dvd_of_mod_eq_zero hwhole)])
    rw [if_pos hwhole]
    constructor
    · intro h _
      apply big_inj (List.length_reverse)
      unfold big
      rw [List.reverse_reverse, hdigits]
      exact h.symm
    · intro h
      unfold big
      rw [h hwhole, hdigits]
  · rw [if_neg hwhole]
    exact ⟨fun _ h => absurd h hwhole, fun _ => rfl⟩

/-- Of several fields, the first and the last are either not whole octets or the same turned. -/
def EndsMirrored (sizes : List ℕ) (vals : List ℤ) : Prop :=
  sizes.length ≤ 1 ∨
    (∀ p ∈ (sizes.zip vals).head?, Mirrored p.1 p.2) ∧ ∀ p ∈ (sizes.zip vals).getLast?, Mirrored p.1 p.2

/-- **Bit fields round-trip.** Big-endian they always do; a little-endian group does exactly where
its ends are not turned once too often: the first field by what it writes and the last by what it
reads. -/
theorem bit_fields_round_trip (sizes : List ℕ) (vals : List ℤ) (hlen : vals.length = sizes.length)
    (hsum : 8 ∣ sizes.sum) :
    RoundTrips (big_endian sizes) vals ∧
      (RoundTrips (little_endian sizes) vals ↔ EndsMirrored sizes vals) := by
  refine ⟨big_endian_round_trips hlen hsum, ?_⟩
  rcases sizes with - | ⟨first, rest⟩
  · rw [List.length_eq_zero_iff.1 hlen]
    exact ⟨fun _ => Or.inl (Nat.zero_le 1), fun _ => ⟨[], rfl, fun t => rfl⟩⟩
  rcases vals with - | ⟨val, vals⟩
  · cases hlen
  have hlen := Nat.succ.inj hlen
  rcases List.eq_nil_or_concat rest with hrest | ⟨mids, last, hrest⟩
  · subst hrest
    rw [List.length_eq_zero_iff.1 hlen]
    rw [List.sum_singleton] at hsum
    exact ⟨fun _ => Or.inl (le_refl 1), fun _ => little_endian_alone val hsum⟩
  rcases List.eq_nil_or_concat vals with hvals | ⟨mvals, last_val, hvals⟩
  · rw [hrest, hvals, List.concat_eq_append, List.length_append] at hlen
    cases hlen
  rw [List.concat_eq_append] at hrest hvals
  subst hrest hvals
  have hmids : mvals.length = mids.length := by
    rw [List.length_append, List.length_append] at hlen
    exact Nat.add_right_cancel hlen
  obtain ⟨s, hbuild, hread⟩ := little_endian_read first last val last_val hmids hsum
  have hzip : List.zipWith field_value (first :: (mids ++ [last])) (val :: (mvals ++ [last_val])) =
      field_value first val :: (List.zipWith field_value mids mvals ++ [field_value last last_val]) := by
    rw [List.zipWith_cons_cons, List.zipWith_append hmids.symm]
    rfl
  have hends : EndsMirrored (first :: (mids ++ [last])) (val :: (mvals ++ [last_val])) ↔
      Mirrored first val ∧ Mirrored last last_val := by
    have hmany : ¬ (first :: (mids ++ [last])).length ≤ 1 := by
      rw [List.length_cons, List.length_append, List.length_singleton]
      omega
    have hhead : ((first :: (mids ++ [last])).zip (val :: (mvals ++ [last_val]))).head? = some (first, val) :=
      rfl
    have hlast : ((first :: (mids ++ [last])).zip (val :: (mvals ++ [last_val]))).getLast? =
        some (last, last_val) := by
      rw [List.zip_cons_cons, List.zip_append hmids.symm, ← List.cons_append]
      exact List.getLast?_concat
    unfold EndsMirrored
    rw [or_iff_right hmany, hhead, hlast]
    simp only [Option.mem_some_iff, forall_eq']
  rw [round_trips_iff (little_endian_size _), hzip, hends, ← turned_eq_iff, ← turned_eq_iff]
  constructor
  · -- the octets are the ones `little_endian_read` has, and what is read of them is one list
    rintro ⟨s', hbuild', hread'⟩
    rw [hbuild] at hbuild'
    cases hbuild'
    have hsame := (hread []).symm.trans (hread' [])
    simp only [Option.some.injEq, Prod.mk.injEq, true_and, List.cons.injEq] at hsame
    obtain ⟨hfirst, hbehind⟩ := hsame
    have hlast := List.append_cancel_left hbehind
    exact ⟨hfirst, List.singleton_inj.1 hlast⟩
  · rintro ⟨hfirst, hlast⟩
    rw [hfirst, hlast] at hread
    exact ⟨s, hbuild, hread⟩

/-- Sixteen bits and sixteen: what is written of the first value is turned twice. -/
theorem bit_fields_turned :
    [0x1234, 0].length = [16, 16].length ∧ 8 ∣ [16, 16].sum ∧
      ¬ RoundTrips (little_endian [16, 16]) [0x1234, 0] := by
  refine ⟨rfl, by decide, ?_⟩
  rintro ⟨s, hbuild, hread⟩
  obtain ⟨s', hbuild', hread'⟩ :=
    little_endian_read 16 16 0x1234 0 (show ([] : List ℤ).length = ([] : List ℕ).length from rfl) (by decide)
  have hs : some (Threaded.octets s) = some (.octets s') := hbuild.symm.trans hbuild'
  cases hs
  have hsame := (hread []).symm.trans (hread' [])
  have hturned : turned 16 (field_value 16 0x1234) = 0x3412 := by decide
  rw [hturned] at hsame
  simp only [Option.some.injEq, Prod.mk.injEq, true_and] at hsame
  have hfirst := (List.cons.inj hsame).1
  exact absurd hfirst (by decide)

/-- Nine bits, two and five, as the field's own documentation has them. -/
theorem bit_fields_documented :
    RoundTrips (big_endian [9, 2, 5]) [300, 1, 17] ∧ RoundTrips (little_endian [9, 2, 5]) [300, 1, 17] := by
  obtain ⟨hbig, hlittle⟩ := bit_fields_round_trip [9, 2, 5] [300, 1, 17] rfl (by decide)
  refine ⟨hbig, hlittle.2 (Or.inr ⟨?_, ?_⟩)⟩
  · rintro p ⟨⟩ hwhole
    cases hwhole
  · rintro p ⟨⟩ hwhole
    cases hwhole

end Wiry.Pyfields
