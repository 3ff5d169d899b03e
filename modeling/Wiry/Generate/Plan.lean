/-
Generators and the plan that multiplies them: `Rng`, `Gen` and `Plan` of
`crates/wiry-core/src/generate.rs`.

Counts and indices are natural numbers here and saturate where the source's `u128` does; what a
random generator draws is threaded through.
-/
import Mathlib.Algebra.BigOperators.Group.List.Basic
import Wiry.Lib.Endian

set_option autoImplicit false

namespace Wiry.Generate

/-! ## Rng -/

def U64_MAX : ℕ := 2 ^ 64 - 1

def U128_MAX : ℕ := 2 ^ 128 - 1

/-- splitmix64. -/
structure Rng where
  state : UInt64
deriving DecidableEq

def Rng.next_u64 (rng : Rng) : UInt64 × Rng :=
  let state := rng.state + 0x9E3779B97F4A7C15
  let z := (state ^^^ (state >>> 30)) * 0xBF58476D1CE4E5B9
  let z := (z ^^^ (z >>> 27)) * 0x94D049BB133111EB
  (z ^^^ (z >>> 31), ⟨state⟩)

def Rng.next_u128 (rng : Rng) : ℕ × Rng :=
  let (hi, rng) := rng.next_u64
  let (lo, rng) := rng.next_u64
  (hi.toNat <<< 64 ||| lo.toNat, rng)

def Rng.in_range (rng : Rng) (lo hi : UInt64) : UInt64 × Rng :=
  if hi ≤ lo then (lo, rng)
  else
    let span := hi - lo
    let (drawn, rng) := rng.next_u64
    if span.toNat = U64_MAX then (drawn, rng)
    else (lo + UInt64.ofNat ((drawn.toNat * (span.toNat + 1)) >>> 64), rng)

def Rng.in_range_wide (rng : Rng) (lo hi : BitVec 128) : ℕ × Rng :=
  if hi ≤ lo then (lo.toNat, rng)
  else
    let span := hi.toNat - lo.toNat
    let (drawn, rng) := rng.next_u128
    if span = U128_MAX then (drawn, rng) else (lo.toNat + drawn % (span + 1), rng)

/-! ## Values -/

inductive GenVal where
  | Uint (n : UInt64)
  | Bytes (b : List UInt8)
  | Text (s : List Char)
deriving DecidableEq

/-- Wider than 8 octets travels as big-endian bytes; narrower as an integer. -/
def addr_val (n width : ℕ) : GenVal :=
  if width ≤ 8 then .Uint (UInt64.ofNat n)
  else .Bytes ((Endian.digits 16 n).reverse.drop (16 - min width 16))

/-! ## Generators -/

inductive Gen where
  | One (v : GenVal)
  | Range (lo hi : UInt64)
  | Addrs (lo hi : BitVec 128) (width : ℕ)
  /-- Concatenation, so `[1, 2, (5, 9)]` is seven values rather than three. -/
  | Seq (parts : List Gen)
  | RandNum (lo hi : UInt64)
  | RandAddr (lo hi : BitVec 128) (width : ℕ)
  | RandBytes (lo hi : UInt64) (alphabet : Option (List UInt8))
  | RandPick (vals : List GenVal)

/-- `u128::saturating_add`. -/
def saturating_add (a b : ℕ) : ℕ := min (a + b) U128_MAX

/-- `u128::saturating_mul`. -/
def saturating_mul (a b : ℕ) : ℕ := min (a * b) U128_MAX

/-- The loop of `RandBytes`. -/
def rand_bytes (alphabet : Option (List UInt8)) : ℕ → Rng → List UInt8 × Rng
  | 0, rng => ([], rng)
  | n + 1, rng =>
    let (o, rng) :=
      match alphabet with
      | some (a :: rest) =>
        let (i, rng) := rng.in_range 0 (UInt64.ofNat rest.length)
        ((a :: rest).getD i.toNat 0, rng)
      | _ =>
        let (drawn, rng) := rng.next_u64
        (drawn.toUInt8, rng)
    let (out, rng) := rand_bytes alphabet n rng
    (o :: out, rng)

mutual

/-- A generator's factor in the product. A random generator yields a fresh value per packet, so it
counts as one. -/
def Gen.count : Gen → ℕ
  | .One _ => 1
  | .Range lo hi => if hi < lo then 0 else (hi - lo).toNat + 1
  | .Addrs lo hi _ => if hi < lo then 0 else saturating_add (hi - lo).toNat 1
  | .Seq parts => count_from 0 parts
  | _ => 1

/-- The fold of `Seq`'s count, from `a` on. -/
def count_from (a : ℕ) : List Gen → ℕ
  | [] => a
  | g :: parts => count_from (saturating_add a g.count) parts

end

mutual

def Gen.at : Gen → ℕ → Rng → GenVal × Rng
  | .One v, _, rng => (v, rng)
  | .Range lo hi, index, rng =>
    let step := min index (hi.toNat - lo.toNat) % 2 ^ 64
    (.Uint (UInt64.ofNat (min (lo.toNat + step) U64_MAX)), rng)
  | .Addrs lo hi width, index, rng =>
    (addr_val (saturating_add lo.toNat (min index (hi.toNat - lo.toNat))) width, rng)
  | .Seq parts, index, rng =>
    match at_part parts index rng with
    | some r => r
    | none => (at_last parts rng).getD (.Uint 0, rng)
  | .RandNum lo hi, _, rng =>
    let (n, rng) := rng.in_range lo hi
    (.Uint n, rng)
  | .RandAddr lo hi width, _, rng =>
    let (n, rng) := rng.in_range_wide lo hi
    (addr_val n width, rng)
  | .RandBytes lo hi alphabet, _, rng =>
    let (n, rng) := rng.in_range lo hi
    let (out, rng) := rand_bytes alphabet n.toNat rng
    (.Bytes out, rng)
  | .RandPick vals, _, rng =>
    match vals with
    | [] => (.Uint 0, rng)
    | v :: rest =>
      let (i, rng) := rng.in_range 0 (UInt64.ofNat rest.length)
      ((v :: rest).getD i.toNat v, rng)

/-- The loop of `Seq`, with what is left of the index. -/
def at_part : List Gen → ℕ → Rng → Option (GenVal × Rng)
  | [], _, _ => none
  | g :: parts, left, rng =>
    if left < g.count then some (g.at left rng) else at_part parts (left - g.count) rng

/-- `parts.last().map(|g| g.at(0, rng))`. -/
def at_last : List Gen → Rng → Option (GenVal × Rng)
  | [], _ => none
  | [g], rng => some (g.at 0 rng)
  | _ :: g :: parts, rng => at_last (g :: parts) rng

end

/-! ## Plans -/

structure Slot where
  layer : ℕ
  name : List Char
  gen : Gen

/-- The generator fields of one template, ordered slowest-varying first. -/
structure Plan where
  slots : List Slot

/-- Within a layer the last field declared varies slowest, and an enclosing layer varies slower than
the one it carries. -/
def slower (a b : Slot × ℕ) : Bool := a.1.layer < b.1.layer ∨ (a.1.layer = b.1.layer ∧ b.2 ≤ a.2)

def Plan.new (slots : List (Slot × ℕ)) : Plan := ⟨(slots.mergeSort slower).map Prod.fst⟩

def Plan.count (p : Plan) : ℕ := p.slots.foldl (fun a s => saturating_mul a s.gen.count) 1

/-- The first loop of `values_at`: digits, the last slot's first. -/
def take_digits : List Slot → ℕ → List ℕ
  | [], _ => []
  | s :: slots, left =>
    let n := max s.gen.count 1
    left % n :: take_digits slots (left / n)

/-- The second loop. -/
def draw : List (Slot × ℕ) → Rng → List (ℕ × List Char × GenVal) × Rng
  | [], rng => ([], rng)
  | (s, d) :: slots, rng =>
    let (v, rng) := s.gen.at d rng
    let (out, rng) := draw slots rng
    ((s.layer, s.name, v) :: out, rng)

/-- The last slot varies fastest. -/
def Plan.values_at (p : Plan) (index : ℕ) (rng : Rng) : List (ℕ × List Char × GenVal) × Rng :=
  draw (p.slots.zip (take_digits p.slots.reverse index).reverse) rng

end Wiry.Generate
