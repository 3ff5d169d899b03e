/-
Repeating groups: `crates/wiry-core/src/repeat.rs`, a group's walk and `sync`.

A group nests groups of type `Sub` and there is nothing in `Empty` to nest, which
keeps a walk to the one level the source allows. What an element was decoded from
is kept beside its item: `Visit` is the loop's `(i, total)` with the item made of
those octets.
-/
import Wiry.Options.Table
import Wiry.Packet.Field
import Wiry.Packet.Dissect

set_option autoImplicit false

namespace Wiry.Repeat

open Packet (Bytes FieldDesc FieldKind read_bits write_bits read_uint slice slice_checked)
open Options (Item ItemValue Entry)

def MAX_ELEMENTS : ℕ := 512

def MAX_ITEMS : ℕ := 8192

def MAX_OWNED_BYTES : ℕ := 64 * 1024

/-- Where the elements stop. -/
inductive Extent where
  /-- A field holds the number of elements. -/
  | Count (bit_off bit_len : ℕ)
  /-- A field holds a byte extent, of which `covers` is spent before the first element. -/
  | Length (bit_off bit_len scale covers : ℕ)
  /-- The elements run to the end of the region. -/
  | Rest

/-- One addend of a computed element length. -/
structure LenTerm where
  bit_off : ℕ
  bit_len : ℕ
  scale : ℕ

inductive ElemLen where
  | Fixed (n : ℕ)
  | Computed (base : ℕ) (terms : List LenTerm) (min : ℕ)

structure GroupDesc (Sub : Type) where
  name : List Char
  fields : List FieldDesc
  elem : ElemLen
  extent : Extent
  /-- Octets from the start of the enclosing record to the first element. -/
  start : ℕ
  /-- Elements are padded up to this; 1 means no padding. -/
  align : ℕ
  nested : Option Sub
  /-- Headers that do not carry this group at all. -/
  when : Option (Bytes → Bool)

/-- What one walk may still spend. -/
structure Budget where
  items : ℕ
  bytes : ℕ

def Budget.new : Budget := ⟨MAX_ITEMS, MAX_OWNED_BYTES⟩

/-- `spend_item`, none where nothing is left. -/
def Budget.spend_item (b : Budget) : Option Budget :=
  if b.items = 0 then none else some { b with items := b.items - 1 }

/-- What a group asks of the groups it nests. -/
class Level (Sub : Type) where
  name : Sub → List Char
  walk_in : Sub → Bytes → Budget → List Item × Budget

instance : Level Empty where
  name := nofun
  walk_in := nofun

/-! ## Values -/

/-- `is_le`. -/
def is_le (f : FieldDesc) : Bool := 1 < f.le_len

/-- `fixed_bytes`: zeros where the header is too short. -/
def fixed_bytes (n : ℕ) (hdr : Bytes) (f : FieldDesc) : Bytes :=
  match slice_checked hdr (f.bit_off / 8) (f.bit_off / 8 + n) with
  | none => List.replicate n 0
  | some src => if is_le f then src.reverse else src

def hex (n : ℕ) : List Char := Nat.toDigits 16 n

/-- `{:02x}`. -/
def hex2 (n : ℕ) : List Char := if n < 16 then '0' :: hex n else hex n

/-- The runs of zero groups `render_ipv6` looks through: the best so far and the current one, each by
its start and length. -/
def zero_run : List ℕ → ℕ → (ℕ × ℕ) × (ℕ × ℕ) → ℕ × ℕ
  | [], _, (best, _) => best
  | x :: g, i, (best, cur) =>
    if x = 0 then
      let cur := (if cur.2 = 0 then i else cur.1, cur.2 + 1)
      zero_run g (i + 1) (if cur.2 > best.2 then cur else best, cur)
    else zero_run g (i + 1) (best, (cur.1, 0))

/-- `u16::from_be_bytes` of each pair of octets. -/
def groups16 : Bytes → List ℕ
  | a :: b :: rest => (a.toNat * 256 + b.toNat) :: groups16 rest
  | _ => []

/-- `render_ipv6`. -/
def render_ipv6 (b : Bytes) : List Char :=
  let g := groups16 b
  let best := zero_run g 0 ((0, 0), (0, 0))
  let join := fun gs : List ℕ => List.intercalate [':'] (gs.map hex)
  -- a lone zero group is written out, not elided
  if best.2 < 2 then join g
  else join (g.take best.1) ++ [':', ':'] ++ join (g.drop (best.1 + best.2))

/-- `value_of`: only an opaque field costs owned bytes against the budget. -/
def value_of (e : Bytes) (f : FieldDesc) (b : Budget) : ItemValue × Budget :=
  let owned := fun v : Bytes =>
    (ItemValue.Bytes (v.take (min v.length b.bytes)), { b with bytes := b.bytes - min v.length b.bytes })
  match f.kind with
  | .Uint | .LeUint | .Flags => (.Uint (read_uint e f), b)
  | .Ipv4Addr =>
    (.Text (List.intercalate ['.'] ((fixed_bytes 4 e f).map fun x => (Nat.repr x.toNat).toList)), b)
  | .Ipv6Addr => (.Text (render_ipv6 (fixed_bytes 16 e f)), b)
  | .MacAddr => (.Text (List.intercalate [':'] ((fixed_bytes 6 e f).map fun x => hex2 x.toNat)), b)
  | .Bytes =>
    let v := (slice_checked e (f.bit_off / 8) (f.bit_off / 8 + f.bit_len / 8)).getD []
    owned (if is_le f then v.reverse else v)
  | .VarBytes => owned (e.drop (f.bit_off / 8))

/-! ## Walking -/

def USIZE_MAX : ℕ := 2 ^ 64 - 1

/-- `usize::saturating_add`. -/
def saturating_add (a b : ℕ) : ℕ := min (a + b) USIZE_MAX

/-- `usize::saturating_mul`. -/
def saturating_mul (a b : ℕ) : ℕ := min (a * b) USIZE_MAX

/-- An element as the walk came to it: where it starts, its octets and what they say. -/
structure Visit where
  off : ℕ
  octets : Bytes
  item : Item

namespace GroupDesc

variable {Sub : Type} (g : GroupDesc Sub)

def applies (rec : Bytes) : Bool :=
  match g.when with
  | some c => c rec
  | none => true

/-- `is_scalar_list`. -/
def is_scalar_list : Bool := g.fields.length == 1 && g.nested.isNone

/-- `elem_len`: octets an element occupies before padding, read from its own octets. -/
def elem_len (e : Bytes) : ℕ :=
  match g.elem with
  | .Fixed n => n
  | .Computed base terms least =>
    max (terms.foldl (fun a t => a + read_bits e t.bit_off t.bit_len * t.scale) base) least

/-- What one element moves the walk on by. -/
def stride (total : ℕ) : ℕ := (total + max g.align 1 - 1) / max g.align 1 * max g.align 1

/-- What is left of the enclosing record behind `start`. -/
def rest (rec : Bytes) : Bytes := rec.drop g.start

/-- `region`: cut to what the extent allows. A length that claims more than a `usize` holds is that
much, before what it covers is taken off. -/
def region (rec : Bytes) : Bytes :=
  match g.extent with
  | .Length bit_off bit_len scale covers =>
    (g.rest rec).take (saturating_mul (read_bits rec bit_off bit_len) scale - covers)
  | _ => g.rest rec

/-- `wanted`. -/
def wanted (rec : Bytes) : Option ℕ :=
  match g.extent with
  | .Count bit_off bit_len => some (read_bits rec bit_off bit_len)
  | _ => none

/-- The values of an element's fields, as far as the budget goes. -/
def field_items (e : Bytes) : List FieldDesc → Budget → List Item × Budget
  | [], b => ([], b)
  | f :: fields, b =>
    match b.spend_item with
    | none => ([], b)
    | some b =>
      let v := value_of e f b
      let more := field_items e fields v.2
      (⟨f.name.toList, 0, v.1⟩ :: more.1, more.2)

variable [Level Sub]

/-- `element`. -/
def element (e : Bytes) (idx : ℕ) (b : Budget) : Item × Budget :=
  let vals := field_items e (g.fields.filter fun f => f.is_active e) b
  let vals : List Item × Budget := match g.nested with
    | none => vals
    | some n =>
      let inner := Level.walk_in n e vals.2
      (vals.1 ++ [⟨Level.name n, 0, .Items inner.1⟩], inner.2.spend_item.getD inner.2)
  if g.is_scalar_list then
    match vals.1.getLast? with
    | some one => ({ one with code := idx }, vals.2)
    | none => (⟨g.name, idx, .Items vals.1⟩, vals.2)
  else (⟨g.name, idx, .Items vals.1⟩, vals.2)

/-- The loop of `walk_in` from octet `i` and element `idx` on, `n` elements at most. -/
def visit_from (want : Option ℕ) (region : Bytes) : ℕ → ℕ → ℕ → Budget → List Visit × Budget
  | 0, _, _, b => ([], b)
  | n + 1, i, idx, b =>
    if i < region.length then
      if want.any (· ≤ idx) then ([], b)
      else
        match b.spend_item with
        | none => ([], b)
        | some b =>
          let total := g.elem_len (region.drop i)
          if total = 0 ∨ i + total > region.length then ([], b)
          else
            let octets := slice region i (i + total)
            let it := g.element octets idx b
            let more := visit_from want region n (i + g.stride total) (idx + 1) it.2
            (⟨i, octets, it.1⟩ :: more.1, more.2)
    else ([], b)

/-- The elements of a walk. -/
def visits (rec : Bytes) (b : Budget) : List Visit × Budget :=
  if g.applies rec then g.visit_from (g.wanted rec) (g.region rec) MAX_ELEMENTS 0 0 b else ([], b)

/-- `walk_in`. -/
def walk_in (rec : Bytes) (b : Budget) : List Item × Budget :=
  ((g.visits rec b).1.map Visit.item, (g.visits rec b).2)

/-- `walk`. -/
def walk (rec : Bytes) : List Item := (g.walk_in rec .new).1

end GroupDesc

instance {Sub : Type} [Level Sub] : Level (GroupDesc Sub) where
  name g := g.name
  walk_in g := g.walk_in

/-! ## Writing the extent -/

namespace GroupDesc

variable {Sub : Type} (g : GroupDesc Sub)

/-- The loop of `region_len`, and of `sync`'s own count: how far `n` elements reach at most from octet
`i` on, and how many they are. -/
def measure_from (want : Option ℕ) (region : Bytes) : ℕ → ℕ → ℕ → ℕ × ℕ
  | 0, i, idx => (i, idx)
  | n + 1, i, idx =>
    if i < region.length then
      if want.any (· ≤ idx) then (i, idx)
      else
        let total := g.elem_len (region.drop i)
        if total = 0 ∨ i + total > region.length then (i, idx)
        else measure_from want region n (i + g.stride total) (idx + 1)
    else (i, idx)

/-- `region_len`. -/
def region_len (rec : Bytes) : ℕ :=
  if g.applies rec then (g.measure_from (g.wanted rec) (g.region rec) MAX_ELEMENTS 0 0).1 else 0

/-- The same group without its extent field. -/
def free : GroupDesc Sub := { g with extent := .Rest }

/-- `sync`: rewrites the extent field to describe the region as it stands. -/
def sync (rec : Bytes) : Bytes :=
  if g.applies rec then
    match g.extent with
    | .Count bit_off bit_len =>
      write_bits rec bit_off bit_len
        (g.free.measure_from none (g.free.region rec) MAX_ELEMENTS 0 0).2
    | .Length bit_off bit_len scale covers =>
      write_bits rec bit_off bit_len ((g.free.region_len rec + covers) / max scale 1)
    | .Rest => rec
  else rec

end GroupDesc

end Wiry.Repeat
