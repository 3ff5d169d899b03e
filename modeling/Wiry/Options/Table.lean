/-
Option regions: `crates/wiry-core/src/options.rs`.

A table says how a protocol's options are laid out, and serves decoding and
encoding alike. No table nests another that nests one of its own, which is a
matter of types here: an `OptTable Sub` nests tables of type `Sub`, and there is
nothing in `Empty` to nest. `u64` is `ℕ`, and an error carries what its text is
made of.
-/
import Wiry.Layers.Text
import Wiry.Lib.Endian

set_option autoImplicit false

namespace Wiry.Options

open Packet Text Endian

/-! ## Values -/

/-- `Item`, over the values it may hold. -/
structure Entry (Value : Type) where
  /-- Conventional name where the code is known, otherwise a numeric label. -/
  name : List Char
  code : ℕ
  value : Value

/-- `[u8; 4]`. -/
abbrev Addr : Type := UInt8 × UInt8 × UInt8 × UInt8

inductive ItemValue where
  /-- Present with no payload. -/
  | Flag
  | Uint (n : ℕ)
  | Int (n : ℤ)
  | Pair (a b : ℕ)
  | Pairs (l : List (ℕ × ℕ))
  | Bytes (b : Bytes)
  | Ipv4List (l : List Addr)
  | Text (s : List Char)
  | Items (l : List (Entry ItemValue))

abbrev Item : Type := Entry ItemValue

/-- A caller's value for encoding. -/
inductive OptArg where
  | Flag
  | Uint (n : ℕ)
  | Bytes (b : Bytes)
  | Text (s : List Char)
  | List (l : List OptArg)

def MAX_ARG_DEPTH : ℕ := 8

/-- `nests_deeper_than`. -/
def OptArg.nests_deeper_than : OptArg → ℕ → Bool
  | _, 0 => true
  | .List l, limit + 1 => l.any fun e => e.nests_deeper_than limit
  | _, _ + 1 => false

/-- The payload layout of one option. -/
inductive Shape where
  | Bare
  | Empty
  | Uint (w : ℕ)
  | LooseUint (w : ℕ)
  | Pair
  | PairList
  | Bytes
  | Ipv4List
  | Text
deriving DecidableEq

/-- Octets an integer value takes when this shape is asked to hold one. -/
def Shape.width : Shape → ℕ
  | .Uint w | .LooseUint w => w
  | .Pair | .PairList => 8
  | .Ipv4List => 4
  | .Bytes | .Text => 1
  | .Bare | .Empty => 0

structure OptDesc (Sub : Type) where
  name : List Char
  code : UInt8
  shape : Shape
  /-- Symbolic values accepted in place of the integer. -/
  names : List (List Char × ℕ)
  sub : Option Sub

/-- What the length octet counts. -/
inductive LenRule where
  | WithHeader
  | PayloadOnly
deriving DecidableEq

/-- Octets behind the length octet, none where it does not even count the header. -/
def LenRule.payload (rule : LenRule) (len : ℕ) : Option ℕ :=
  match rule with
  | .WithHeader => if len < 2 then none else some (len - 2)
  | .PayloadOnly => some len

/-- What the length octet holds over a payload of `n` octets. -/
def LenRule.len (rule : LenRule) (n : ℕ) : ℕ :=
  match rule with
  | .WithHeader => n + 2
  | .PayloadOnly => n

structure OptTable (Sub : Type) where
  proto : List Char
  rule : LenRule
  /-- The code that closes the region. -/
  end_ : Option UInt8
  opts : List (OptDesc Sub)

inductive OptError where
  | TooDeep (proto name : List Char)
  | Unknown (proto name : List Char)
  | CodeRange (proto : List Char) (code : ℕ)
  | TooLong (proto name : List Char)
  | OddEdges
  | NoEdge (s : List Char)
  | NoNumber (s : List Char)
  | MixedList
  | NoAddress (s : List Char)

/-- What a table asks of the tables it nests. -/
class Level (Sub : Type) where
  walk : Sub → Bytes → List Item
  encode : Sub → List Item → Except OptError Bytes
  item : Sub → List Char → OptArg → Except OptError Item

instance : Level Empty where
  walk := nofun
  encode := nofun
  item := nofun

/-! ## Integers and text -/

/-- `be`: at most eight octets. -/
def be (b : Bytes) : ℕ := (b.take 8).foldl (fun v x => v * 256 + x.toNat) 0

/-- `be_bytes`: the last `width` of the eight octets of `to_be_bytes`. -/
def be_bytes (v width : ℕ) : Bytes := (digits 8 v).reverse.drop (8 - min width 8)

/-- `addrs`: a trailing partial address is dropped. -/
def addrs : Bytes → List Addr
  | a :: b :: c :: d :: rest => (a, b, c, d) :: addrs rest
  | _ => []

/-- `pairs`. -/
def pairs : Bytes → List (ℕ × ℕ)
  | a :: b :: c :: d :: e :: f :: g :: h :: rest => (be [a, b, c, d], be [e, f, g, h]) :: pairs rest
  | _ => []

/-- The octets of a scalar value in UTF-8. -/
def utf8_encode (c : Char) : Bytes :=
  let n := c.toNat
  if n < 0x80 then [UInt8.ofNat n]
  else if n < 0x800 then [UInt8.ofNat (0xC0 + n / 64), UInt8.ofNat (0x80 + n % 64)]
  else if n < 0x10000 then
    [UInt8.ofNat (0xE0 + n / 4096), UInt8.ofNat (0x80 + n / 64 % 64), UInt8.ofNat (0x80 + n % 64)]
  else
    [UInt8.ofNat (0xF0 + n / 262144), UInt8.ofNat (0x80 + n / 4096 % 64),
      UInt8.ofNat (0x80 + n / 64 % 64), UInt8.ofNat (0x80 + n % 64)]

/-- `str::as_bytes`. -/
def as_bytes (s : List Char) : Bytes := s.flatMap utf8_encode

/-- `char::to_digit` for decimal. -/
def to_digit (c : Char) : Option ℕ :=
  if 48 ≤ c.toNat ∧ c.toNat ≤ 57 then some (c.toNat - 48) else none

/-- `str::parse` of an unsigned integer below `bound`. -/
def parse_uint (bound : ℕ) (s : List Char) : Option ℕ :=
  let ds := if s.head? = some '+' then s.tail else s
  if ds = [] then none
  else
    match ds.mapM to_digit with
    | none => none
    | some l =>
      let v := l.foldl (fun v d => v * 10 + d) 0
      if v < bound then some v else none

/-- `parse::ipv4`. -/
def ipv4 (s : List Char) : Option Bytes :=
  let parts := s.splitOn '.'
  if parts.length = 4 then
    parts.mapM fun part =>
      if part = [] ∨ 3 < part.length then none else (parse_uint 256 part).map UInt8.ofNat
  else none

/-! ## Reading a region -/

namespace OptTable

variable {Sub : Type} (t : OptTable Sub)

def by_code (code : UInt8) : Option (OptDesc Sub) := t.opts.find? fun d => d.code == code

def by_name (name : List Char) : Option (OptDesc Sub) := t.opts.find? fun d => d.name == name

def is_bare (code : UInt8) : Bool := (t.by_code code).any fun d => d.shape == .Bare

/-- The loop of `walk_raw` on what is left of the region, `guard` turns at most. -/
def walk_raw_from : ℕ → Bytes → List (UInt8 × Bytes)
  | 0, _ => []
  | _, [] => []
  | guard + 1, code :: rest =>
    -- what follows the end code is padding and is not decoded
    if some code = t.end_ then if t.is_bare code then [(code, [])] else []
    else if t.is_bare code then (code, []) :: walk_raw_from guard rest
    else
      match rest with
      | [] => []
      | len :: body =>
        match LenRule.payload t.rule len.toNat with
        | none => []
        | some k =>
          if k > body.length then []
          else (code, body.take k) :: walk_raw_from guard (body.drop k)

/-- `walk_raw`: one code and one payload an option. -/
def walk_raw (data : Bytes) : List (UInt8 × Bytes) := t.walk_raw_from 512 data

variable [Level Sub]

/-- The value `decode` reads in a payload of a known option. -/
def value_in (d : OptDesc Sub) (p : Bytes) : ItemValue :=
  match d.sub with
  | some s => .Items (Level.walk s p)
  | none =>
    match d.shape with
    | .Bare | .Empty => .Flag
    -- the capture disagrees with the registry; keep the raw payload
    | .Uint w => if p.length = w then .Uint (be p) else .Bytes p
    | .LooseUint _ => .Uint (be p)
    | .Pair => if p.length = 8 then .Pair (be (p.take 4)) (be (p.drop 4)) else .Bytes p
    | .PairList => if p ≠ [] ∧ p.length % 8 = 0 then .Pairs (pairs p) else .Bytes p
    | .Bytes => .Bytes p
    | .Ipv4List => .Ipv4List (addrs p)
    | .Text => .Text (from_utf8_lossy p)

/-- `decode`. -/
def decode (code : UInt8) (p : Bytes) : Item :=
  match t.by_code code with
  | none => ⟨(Nat.repr code.toNat).toList, code.toNat, .Bytes p⟩
  | some d => ⟨d.name, code.toNat, value_in d p⟩

/-- `walk`. -/
def walk (data : Bytes) : List Item := (t.walk_raw data).map fun x => t.decode x.1 x.2

end OptTable

/-! ## Writing a region -/

/-- `payload`. -/
def payload (shape : Shape) (v : ItemValue) : Bytes :=
  if shape = .Bare ∨ shape = .Empty then []
  else
    match v with
    | .Flag => []
    | .Uint n => be_bytes n shape.width
    | .Int n => be_bytes (n % 2 ^ 64).toNat shape.width
    | .Pair a b => be_bytes a 4 ++ be_bytes b 4
    | .Pairs l => l.flatMap fun x => be_bytes x.1 4 ++ be_bytes x.2 4
    | .Bytes b => b
    | .Ipv4List l => l.flatMap fun a => [a.1, a.2.1, a.2.2.1, a.2.2.2]
    | .Text s => as_bytes s
    | .Items _ => []

namespace OptTable

variable {Sub : Type} [Level Sub] (t : OptTable Sub)

/-- The shape an option is written in. -/
def shape_of (code : UInt8) : Shape := ((t.by_code code).map OptDesc.shape).getD .Bytes

/-- The payload an item is written with. -/
def payload_of (code : UInt8) (v : ItemValue) : Except OptError Bytes :=
  match (t.by_code code).bind OptDesc.sub, v with
  | some s, .Items l => Level.encode s l
  | _, v => .ok (payload (t.shape_of code) v)

/-- One turn of the loop in `encode`. -/
def encode_one (it : Item) : Except OptError Bytes :=
  if it.code < 256 then
    let code := UInt8.ofNat it.code
    if t.shape_of code = .Bare then .ok [code]
    else
      match t.payload_of code it.value with
      | .error e => .error e
      | .ok p =>
        if LenRule.len t.rule p.length > 255 then .error (.TooLong t.proto it.name)
        else .ok (code :: UInt8.ofNat (LenRule.len t.rule p.length) :: p)
  else .error (.CodeRange t.proto it.code)

/-- `encode`. -/
def encode : List Item → Except OptError Bytes
  | [] => .ok []
  | it :: items =>
    match t.encode_one it with
    | .error e => .error e
    | .ok octets =>
      match encode items with
      | .error e => .error e
      | .ok rest => .ok (octets ++ rest)

end OptTable

/-! ## Coercing a caller's value -/

/-- `flat_bytes`: an integer is one octet here, truncated. -/
def flat_bytes : OptArg → Bytes
  | .Flag => []
  | .Uint n => [UInt8.ofNat n]
  | .Bytes b => b
  | .Text s => as_bytes s
  | .List l => l.flatMap flat_bytes

/-- `push_addrs`. -/
def push_addrs : OptArg → Except OptError Bytes
  | .Flag => .ok []
  | .Uint n => .ok (be_bytes n 4)
  | .Bytes b => .ok b
  | .Text s =>
    match ipv4 s with
    | none => .error (.NoAddress s)
    | some a => .ok a
  | .List l => (l.mapM push_addrs).map List.flatten

/-- `ip_value`. -/
def ip_value (arg : OptArg) : Except OptError ItemValue :=
  match push_addrs arg with
  | .error e => .error e
  | .ok out => .ok (if out.length % 4 = 0 then .Ipv4List (addrs out) else .Bytes out)

/-- `chunks_exact(4)` of a caller's octets, as integers. -/
def words : Bytes → List ℕ
  | a :: b :: c :: d :: rest => be [a, b, c, d] :: words rest
  | _ => []

mutual

/-- `push_uints`. -/
def push_uints : OptArg → List ℕ → Except OptError (List ℕ)
  | .Flag, out => .ok out
  | .Uint n, out => .ok (out ++ [n])
  | .Text s, out =>
    match parse_uint (2 ^ 64) s with
    | none => .error (.NoEdge s)
    | some n => .ok (out ++ [n])
  | .Bytes b, out => .ok (out ++ words b)
  | .List l, out => push_all l out

/-- The loop over a list's own values. -/
def push_all : List OptArg → List ℕ → Except OptError (List ℕ)
  | [], out => .ok out
  | e :: l, out =>
    match push_uints e out with
    | .error err => .error err
    | .ok out => push_all l out

end

/-- `chunks_exact(2)`. -/
def couples : List ℕ → List (ℕ × ℕ)
  | a :: b :: rest => (a, b) :: couples rest
  | _ => []

/-- `pair_value`. -/
def pair_value : OptArg → Except OptError ItemValue
  | .Bytes b => .ok (.Bytes b)
  | arg =>
    match push_uints arg [] with
    | .error e => .error e
    | .ok edges => if edges.length % 2 ≠ 0 then .error .OddEdges else .ok (.Pairs (couples edges))

/-- The octets of a list of integers, four each. -/
def wide_bytes : List OptArg → Except OptError Bytes
  | [] => .ok []
  | .Uint n :: l =>
    match wide_bytes l with
    | .error e => .error e
    | .ok rest => .ok (be_bytes n 4 ++ rest)
  | _ :: _ => .error .MixedList

/-- The integer a text stands for: a name of the option's own before a decimal. -/
def named_value (names : List (List Char × ℕ)) (s : List Char) : Option ℕ :=
  match names.find? fun x => eq_ignore_ascii_case x.1 s with
  | some x => some x.2
  | none => parse_uint (2 ^ 64) s

/-- `num_value`. -/
def num_value (shape : Shape) (names : List (List Char × ℕ)) : OptArg → Except OptError ItemValue
  | .Flag => .ok (.Uint 0)
  | .Uint n => .ok (.Uint n)
  | .Bytes b => .ok (.Bytes b)
  | .Text s =>
    match named_value names s with
    | none => .error (.NoNumber s)
    | some n => .ok (.Uint n)
  | .List [one] => num_value shape names one
  | .List l =>
    match shape, l with
    | .Pair, [.Uint a, .Uint b] => .ok (.Pair a b)
    | _, l =>
      match wide_bytes l with
      | .error e => .error e
      | .ok b => .ok (.Bytes b)

/-- `value_of`. -/
def value_of (shape : Shape) (names : List (List Char × ℕ)) (arg : OptArg) : Except OptError ItemValue :=
  match shape with
  | .Bare | .Empty => .ok .Flag
  | .Uint _ | .LooseUint _ | .Pair => num_value shape names arg
  | .PairList => pair_value arg
  | .Ipv4List => ip_value arg
  | .Text | .Bytes => .ok (.Bytes (flat_bytes arg))

/-- The entries of `sub_value`, none where one of them is not a named value. -/
def sub_items {Sub : Type} [Level Sub] (s : Sub) : List OptArg → Except OptError (Option (List Item))
  | [] => .ok (some [])
  | e :: l =>
    match e with
    | .List [.Text n, v] => sub_push (Level.item s n v) (sub_items s l)
    | .List [.Text n] => sub_push (Level.item s n .Flag) (sub_items s l)
    | _ => .ok none
where
  sub_push (i : Except OptError Item) (rest : Except OptError (Option (List Item))) :
      Except OptError (Option (List Item)) :=
    match i with
    | .error e => .error e
    | .ok i => rest.map (Option.map (i :: ·))

/-- `sub_value`: a list of named entries becomes nested items, anything else raw octets. -/
def sub_value {Sub : Type} [Level Sub] (s : Sub) (arg : OptArg) : Except OptError ItemValue :=
  match arg with
  | .List entries =>
    match sub_items s entries with
    | .error e => .error e
    | .ok (some items) => .ok (.Items items)
    | .ok none => .ok (.Bytes (flat_bytes arg))
  | arg => .ok (.Bytes (flat_bytes arg))

namespace OptTable

variable {Sub : Type} [Level Sub] (t : OptTable Sub)

/-- The value `item` coerces an argument into. -/
def coerce (d : OptDesc Sub) (arg : OptArg) : Except OptError ItemValue :=
  match d.sub with
  | some s => sub_value s arg
  | none => value_of d.shape d.names arg

/-- `item`: resolves a name, or a decimal code the table does not name. -/
def item (name : List Char) (arg : OptArg) : Except OptError Item :=
  if arg.nests_deeper_than MAX_ARG_DEPTH then .error (.TooDeep t.proto name)
  else
    match t.by_name name with
    | some d => (coerce d arg).map fun v => ⟨d.name, d.code.toNat, v⟩
    | none =>
      match parse_uint 256 name with
      | some code => (value_of .Bytes [] arg).map fun v => ⟨name, code, v⟩
      | none => .error (.Unknown t.proto name)

/-- `build`. -/
def build (opts : List (List Char × OptArg)) : Except OptError Bytes :=
  match opts.mapM fun x => t.item x.1 x.2 with
  | .error e => .error e
  | .ok items => t.encode items

end OptTable

instance {Sub : Type} [Level Sub] : Level (OptTable Sub) where
  walk t := t.walk
  encode t := t.encode
  item t := t.item

end Wiry.Options
