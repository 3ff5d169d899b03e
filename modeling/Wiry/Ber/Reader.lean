/-
The two BER readers, one encoding at a time: `read`, `int` and `oid` of
`crates/wiry-core/src/layers/ber.rs`, and beside them the element scan and the contents
of INTEGER and OBJECT IDENTIFIER in `python/wiry/asn1/ber.py`.

The Rust reader's widths (32-bit tags and lengths, 64-bit subidentifiers) are explicit; the
Python one has none. Text is a list of characters on both sides.
-/
import Wiry.Options.Octets
import Wiry.Packet.Dissect

set_option autoImplicit false

namespace Wiry.Ber

open Packet (Bytes slice slice_checked)

/-! ## Rust: one element -/

structure Tlv where
  class_ : UInt8
  constructed : Bool
  tag : ℕ
  value : Bytes
  /-- Identifier, length and value together. -/
  total : ℕ

/-- The loop over a high tag number's octets from `i` on: the tag, and the offset behind them. -/
def read_tag (data : Bytes) (i tag : ℕ) : Option (ℕ × ℕ) :=
  match _h : data[i]? with
  | none => none
  | some b =>
    if tag >>> 25 ≠ 0 then none
    else
      let tag := tag * 128 + (b &&& 0x7F).toNat
      if b &&& 0x80 = 0 then some (tag, i + 1) else read_tag data (i + 1) tag
termination_by data.length - i
decreasing_by
  have hlt := (List.getElem?_eq_some_iff.1 _h).1
  omega

/-- The length octets from `i` on: the length, and the offset behind them. -/
def read_len (data : Bytes) (i : ℕ) : Option (ℕ × ℕ) :=
  match data[i]? with
  | none => none
  | some first =>
    if first &&& 0x80 = 0 then some (first.toNat, i + 1)
    else
      let n := (first &&& 0x7F).toNat
      if n = 0 ∨ 4 < n then none
      else
        (slice_checked data (i + 1) (i + 1 + n)).map fun bytes =>
          (bytes.foldl (fun a b => a * 256 + b.toNat) 0, i + 1 + n)

/-- The tag number behind the identifier octet `id`, and the offset behind it. -/
def identifier (data : Bytes) (id : UInt8) : Option (ℕ × ℕ) :=
  if id &&& 0x1F = 0x1F then read_tag data 1 0 else some ((id &&& 0x1F).toNat, 1)

def read (data : Bytes) : Option Tlv := do
  let id ← data[0]?
  let (tag, i) ← identifier data id
  let (len, i) ← read_len data i
  let value ← slice_checked data i (i + len)
  some ⟨id >>> 6, id &&& 0x20 ≠ 0, tag, value, i + len⟩

/-! ## Rust: contents -/

def MAX_ARCS : ℕ := 128

def uint (v : Bytes) : ℕ := (v.take 8).foldl (fun a b => a * 256 + b.toNat) 0

/-- The fold of `int` over a negative number's octets, in `i64`. -/
def int_fold (v : Bytes) : ℤ := v.foldl (fun a b => Int.bmod (a * 256 + b.toNat) (2 ^ 64)) (-1)

def int (v : Bytes) : Option Options.ItemValue :=
  match v with
  | [] => none
  | first :: rest =>
    if first &&& 0x80 = 0 then
      let digits := if first = 0 then rest else v
      if 8 < digits.length then none else some (.Uint (uint digits))
    else if 8 < v.length then none
    else some (.Int (int_fold v))

/-- The loop of `oid`, with the subidentifiers taken and the `u64` under way. -/
def oid_subs : Bytes → List ℕ → ℕ → List ℕ
  | [], subs, _ => subs
  | b :: v, subs, acc =>
    if subs.length = MAX_ARCS then subs
    else
      let acc := (acc * 128 + (b &&& 0x7F).toNat) % 2 ^ 64
      if b &&& 0x80 = 0 then oid_subs v (subs ++ [acc]) 0 else oid_subs v subs acc

/-- The decimal digits of a number. -/
def decimal (n : ℕ) : List Char := (toString n).toList

def oid (v : Bytes) : List Char :=
  match oid_subs v [] 0 with
  | [] => []
  | first :: rest =>
    let ab := if first < 80 then (first / 40, first % 40) else (2, first - 80)
    rest.foldl (fun out s => out ++ '.' :: decimal s) (decimal ab.1 ++ '.' :: decimal ab.2)

/-! ## Python: the element scan -/

/-- The loop of `_tlv_ends` over a high tag number's octets that are not the last. -/
def skip_tag (s : Bytes) (j : ℕ) : ℕ :=
  match _h : s[j]? with
  | none => j
  | some b => if b &&& 0x80 = 0 then j else skip_tag s (j + 1)
termination_by s.length - j
decreasing_by
  have hlt := (List.getElem?_eq_some_iff.1 _h).1
  omega

/-- `int.from_bytes(_, "big")`. -/
def from_bytes (b : Bytes) : ℕ := b.foldl (fun a x => a * 256 + x.toNat) 0

/-- Where the element at `i` ends, for one pass of `_tlv_ends`. -/
def tlv_end (s : Bytes) (i : ℕ) : Option ℕ :=
  match s[i]? with
  | none => none
  | some id =>
    let j := if id &&& 0x1F = 0x1F then skip_tag s (i + 1) + 1 else i + 1
    match s[j]? with
    | none => none
    | some first =>
      let k := (first &&& 0x7F).toNat
      if first &&& 0x80 ≠ 0 then
        if s.length < j + 1 + k then none
        else
          let stop := j + 1 + k + from_bytes (slice s (j + 1) (j + 1 + k))
          if s.length < stop then none else some stop
      else
        let stop := j + 1 + first.toNat
        if s.length < stop then none else some stop

/-- Skipping never goes back. -/
theorem skip_tag_ge (s : Bytes) (j : ℕ) : j ≤ skip_tag s j := by
  fun_induction skip_tag s j with
  | case1 => exact le_rfl
  | case2 => exact le_rfl
  | case3 j b hb hmore ih => omega

/-- An element ends after it starts and within the string. -/
theorem tlv_end_gt {s : Bytes} {i stop : ℕ} (h : tlv_end s i = some stop) :
    i < stop ∧ stop ≤ s.length := by
  unfold tlv_end at h
  split at h
  · cases h
  · next id hid =>
    -- where the identifier ends; at least one octet behind the start
    have hj : i + 1 ≤ if id &&& 0x1F = 0x1F then skip_tag s (i + 1) + 1 else i + 1 := by
      split
      · exact (skip_tag_ge s (i + 1)).trans (Nat.le_succ _)
      · exact le_rfl
    dsimp only at h
    generalize (if id &&& 0x1F = 0x1F then skip_tag s (i + 1) + 1 else i + 1) = j at h hj
    split at h
    · cases h
    -- The length in one octet, or in the octets its first one counts.
    · split at h
      · split at h
        · cases h
        · split at h
          · cases h
          · cases h
            omega
      · split at h
        · cases h
        · cases h
          omega

/-- `_tlv_ends` from offset `i` on. -/
def tlv_ends_from (s : Bytes) (i : ℕ) : List ℕ :=
  match _h : tlv_end s i with
  | none => []
  | some stop => stop :: tlv_ends_from s stop
termination_by s.length - i
decreasing_by
  have hgt := tlv_end_gt _h
  omega

theorem tlv_ends_from_some {s : Bytes} {i stop : ℕ} (h : tlv_end s i = some stop) :
    tlv_ends_from s i = stop :: tlv_ends_from s stop := by
  rw [tlv_ends_from]
  split
  · next hnone =>
    rw [h] at hnone
    cases hnone
  · next hsome =>
    rw [h] at hsome
    cases hsome
    rfl

theorem tlv_ends_from_none {s : Bytes} {i : ℕ} (h : tlv_end s i = none) : tlv_ends_from s i = [] := by
  rw [tlv_ends_from]
  split
  · rfl
  · next hsome =>
    rw [h] at hsome
    cases hsome

def tlv_ends (s : Bytes) : List ℕ := tlv_ends_from s 0

/-! ## Python: contents -/

/-- `int.from_bytes(_, "big", signed=True)`. -/
def from_bytes_signed (b : Bytes) : ℤ :=
  match b with
  | [] => 0
  | first :: _ =>
    if first &&& 0x80 = 0 then from_bytes b else from_bytes b - 2 ^ (8 * b.length)

inductive OidError where
  /-- BER_num_dec: maximum value reached (2^32-1) -/
  | maximum_value
  /-- BER_num_dec: unfinished number description -/
  | unfinished_number
deriving DecidableEq

/-- The loop of `BERcodec_OID.do_dec`, with the subidentifiers taken and the one under way. -/
def oid_loop : Bytes → List ℕ → ℕ → Except OidError (List ℕ)
  | [], lst, _ => .ok lst
  | c :: s, lst, x =>
    let x := x * 128 + (c &&& 0x7F).toNat
    if c &&& 0x80 = 0 then oid_loop s (lst ++ [x]) 0
    else if x >>> (7 * 33) ≠ 0 then .error .maximum_value
    else oid_loop s lst x

/-- The subidentifiers of an OBJECT IDENTIFIER's contents. -/
def subidentifiers (s : Bytes) : Except OidError (List ℕ) :=
  match oid_loop s [] 0 with
  | .error e => .error e
  | .ok lst => if s.getLast?.any fun c => c &&& 0x80 ≠ 0 then .error .unfinished_number else .ok lst

/-- The first subidentifier is two arcs. -/
def arcs : List ℕ → List ℕ
  | [] => []
  | first :: rest => (if 80 ≤ first then [2, first - 80] else [first / 40, first % 40]) ++ rest

/-- `b".".join(...)` of the arcs in decimal. -/
def dotted (lst : List ℕ) : List Char := List.intercalate ['.'] (lst.map decimal)

/-- What `BERcodec_OID.do_dec` makes of its contents. -/
def oid_contents (s : Bytes) : Except OidError (List Char) :=
  (subidentifiers s).map fun lst => dotted (arcs lst)

end Wiry.Ber
