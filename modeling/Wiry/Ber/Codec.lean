/-
`BERcodec_Object.dec` and the encoders of `python/wiry/asn1/ber.py`, in the
UNIVERSAL context and with `safe` off: INTEGER, BIT STRING, STRING, OID, SEQUENCE and SET.
What the codecs of the other tags do is the parameter `other`.

An exception leaves the budget of the outermost decode behind, so a decoder that raises has
no state to hand on.
-/
import Mathlib.Data.List.DropRight
import Wiry.Ber.Reader

set_option autoImplicit false

namespace Wiry.Ber

open Packet (Bytes slice)

def MAX_BER_DEPTH : ℕ := 32

/-- Identifier octets read in one top-level decode. -/
def MAX_BER_ELEMENTS : ℕ := 1 <<< 18

inductive BerError where
  /-- Got empty object while expecting tag -/
  | empty_object
  /-- Got tag while expecting -/
  | bad_tag
  /-- No bytes while expecting a length -/
  | no_length
  /-- BER_len_dec: Got bytes while expecting -/
  | len_dec
  /-- BER_len_enc: Length too long to be encoded -/
  | len_enc
  /-- Got bytes while expecting -/
  | too_short
  /-- BER_num_dec: got empty string, maximum value reached or unfinished number description -/
  | num_dec
  /-- BERcodec_BIT_STRING found no content (not even unused_bits byte) -/
  | no_content
  | oid (e : OidError)
  /-- element consumed no octets -/
  | nothing_consumed
  /-- Not enough bytes to decode sequence -/
  | sequence_short
  /-- BER: more than 262144 elements in one decode -/
  | too_many_elements
  /-- Reached maximum ASN.1 packet nesting -/
  | nesting
  /-- Reached maximum BER recursion limit -/
  | recursion
  /-- A Python error of another class, as `int` raises on what is no number. -/
  | python
deriving DecidableEq

/-! ## The budget -/

/-- `_state`: what is left to the outermost decode, none outside of one. -/
structure Budget where
  left : Option ℕ
  nesting : ℕ
deriving DecidableEq

abbrev Decoder (α : Type) : Type := Budget → Except BerError (α × Budget)

namespace Decoder

variable {α β : Type}

def ok (a : α) : Decoder α := fun st => .ok (a, st)

def raise (e : BerError) : Decoder α := fun _ => .error e

def and_then (m : Decoder α) (f : α → Decoder β) : Decoder β := fun st =>
  match m st with
  | .ok (a, st) => f a st
  | .error e => .error e

def lift (r : Except BerError α) : Decoder α := fun st => r.map fun a => (a, st)

theorem and_then_of_ok {m : Decoder α} {st st' : Budget} {a : α} (h : m st = .ok (a, st'))
    (f : α → Decoder β) : and_then m f st = f a st' := by
  unfold and_then
  rw [h]

theorem and_then_of_error {m : Decoder α} {st : Budget} {e : BerError} (h : m st = .error e)
    (f : α → Decoder β) : and_then m f st = .error e := by
  unfold and_then
  rw [h]

end Decoder

/-- `ber_budget`: every decode inside is charged to one budget, opened by the outermost. -/
def ber_budget {α : Type} (inside : Decoder α) : Decoder α := fun st =>
  let opened : Budget := if st.left.isSome then st else ⟨some MAX_BER_ELEMENTS, 0⟩
  if MAX_BER_DEPTH < opened.nesting + 1 then .error .nesting
  else
    match inside { opened with nesting := opened.nesting + 1 } with
    | .error e => .error e
    | .ok (a, st') =>
      .ok (a, { left := if st.left.isSome then st'.left else none, nesting := st'.nesting - 1 })

/-- `_charge`. -/
def charge : Decoder Unit := fun st =>
  match st.left with
  | none => .ok ((), st)
  | some left =>
    if left = 0 then .error .too_many_elements
    else .ok ((), { st with left := some (left - 1) })

/-! ## Identifier and length -/

/-- The loop of `BER_num_dec` from octet `i` on. -/
def num_dec_loop : Bytes → ℕ → ℕ → Except BerError (ℕ × Bytes)
  | [], _, _ => .error .num_dec
  | c :: s, i, x =>
    let x := x * 128 + (c &&& 0x7F).toNat
    if c &&& 0x80 = 0 then .ok (x, s)
    else if 32 < i then .error .num_dec
    else num_dec_loop s (i + 1) x

/-- `BER_num_dec` with the octets of a high tag number. -/
def BER_num_dec (s : Bytes) (cls_id : ℕ) : Except BerError (ℕ × Bytes) := num_dec_loop s 0 cls_id

/-- `BER_id_dec`: the tag with its class and constructed bits still on it. -/
def BER_id_dec (s : Bytes) : Decoder (ℕ × Bytes) :=
  charge.and_then fun _ =>
    match s with
    | [] => .raise .python
    | x :: s =>
      if x &&& 0x1F ≠ 0x1F then .ok (x.toNat, s) else .lift (BER_num_dec s (x.toNat / 32))

/-- `BER_len_dec`. -/
def BER_len_dec (s : Bytes) : Except BerError (ℕ × Bytes) :=
  match s with
  | [] => .error .python
  | first :: rest =>
    if first &&& 0x80 = 0 then .ok (first.toNat, rest)
    else
      let tmp_len := (first &&& 0x7F).toNat
      if s.length ≤ tmp_len then .error .len_dec
      else .ok (from_bytes (rest.take tmp_len), rest.drop tmp_len)

/-- `check_type`, with `check_string` before it. -/
def check_type (tag : ℕ) (s : Bytes) : Decoder Bytes :=
  if s = [] then .raise .empty_object
  else
    (BER_id_dec s).and_then fun p =>
      if p.1 ≠ tag then .raise .bad_tag else .ok p.2

/-- `check_type_get_len`. -/
def check_type_get_len (tag : ℕ) (s : Bytes) : Decoder (ℕ × Bytes) :=
  (check_type tag s).and_then fun s2 =>
    if s2 = [] then .raise .no_length else .lift (BER_len_dec s2)

/-- `check_type_check_len`: the contents and what follows them. -/
def check_type_check_len (tag : ℕ) (s : Bytes) : Decoder (Bytes × Bytes) :=
  (check_type_get_len tag s).and_then fun p =>
    if p.2.length < p.1 then .raise .too_short else .ok (p.2.take p.1, p.2.drop p.1)

/-! ## Objects and their codecs -/

/-- What a decode yields: an object of one of the six classes, or `other`. -/
inductive Obj (ω : Type) where
  | INTEGER (val : ℤ)
  | BIT_STRING (val : List Bool)
  | STRING (val : Bytes)
  | OID (val : List Char)
  | SEQUENCE (val : List (Obj ω))
  | SET (val : List (Obj ω))
  | other (o : ω)

/-- The eight bits of an octet, most significant first: `binrepr(x).zfill(8)`. -/
def bits_of (x : UInt8) : List Bool := (List.range 8).map fun i => x.toNat.testBit (7 - i)

/-- `BERcodec_BIT_STRING.do_dec` on its contents. -/
def bit_string_contents (s : Bytes) : Except BerError (List Bool) :=
  match s with
  | [] => .error .no_content
  | unused_bits :: rest =>
    let fs := rest.flatMap bits_of
    .ok (if 0 < unused_bits.toNat then fs.take (fs.length - unused_bits.toNat) else fs)

/-- `BERcodec_OID.do_dec` on its contents. -/
def oid_object (s : Bytes) : Except BerError (List Char) :=
  match oid_contents s with
  | .ok val => .ok val
  | .error e => .error (.oid e)

/-! ## The elements of a constructed value -/

/-- `Elements`: the contents, where the elements not handed out yet end, and how far it is. -/
structure Elements where
  s : Bytes
  ends : List ℕ
  pos : ℕ
  slow : Option Bytes
  last : ℕ

def Elements.new (s : Bytes) : Elements := ⟨s, tlv_ends s, 0, none, 0⟩

/-- `__next__`. -/
def Elements.next (e : Elements) : Option (Bytes × Elements) :=
  match e.slow with
  | some slow => if slow = [] then none else some (slow, { e with slow := some [], last := slow.length })
  | none =>
    match e.ends with
    | stop :: ends =>
      let chunk := slice e.s e.pos stop
      some (chunk, { e with ends, pos := stop, last := chunk.length })
    | [] =>
      if e.pos < e.s.length then
        let chunk := e.s.drop e.pos
        some (chunk, { e with pos := e.s.length, slow := some [], last := chunk.length })
      else none

/-- `rest`: what follows the element last handed out. -/
def Elements.rest (e : Elements) : Bytes := e.slow.getD (e.s.drop e.pos)

/-- `leftover`: octets an element left undecoded go back in front of the rest. -/
def Elements.leftover (e : Elements) (remain : Bytes) : Except BerError Elements :=
  if remain = [] then .ok e
  else if e.last ≤ remain.length then .error .nothing_consumed
  else .ok { e with slow := some (remain ++ e.rest), pos := e.s.length, ends := [] }

section Decoding

variable {ω : Type} (other : ℕ → Bytes → Decoder (ω × Bytes))

/-- The loop of `BERcodec_SEQUENCE.do_dec`, for `n` elements at most. An element takes an octet at
least, so as many turns as there are octets are enough. -/
def walk (dec : Bytes → Decoder (Obj ω × Bytes)) :
    ℕ → Elements → List (Obj ω) → Decoder (List (Obj ω))
  | 0, _, obj => .ok obj
  | n + 1, elts, obj =>
    match elts.next with
    | none => .ok obj
    | some (elt, elts) =>
      (dec elt).and_then fun p =>
        (Decoder.lift (elts.leftover p.2)).and_then fun elts => walk dec n elts (obj ++ [p.1])

/-- `BERcodec_SEQUENCE.do_dec`. -/
def sequence_do_dec (dec : Bytes → Decoder (Obj ω × Bytes)) (tag : ℕ) (s : Bytes) :
    Decoder (List (Obj ω) × Bytes) :=
  (check_type_get_len tag s).and_then fun p =>
    let content := p.2.take p.1
    (walk dec content.length (Elements.new content) []).and_then fun obj =>
      if p.2.length < p.1 then .raise .sequence_short else .ok (obj, p.2.drop p.1)

/-- `do_dec` of the codec registered for a tag. -/
def codec_do_dec (dec : Bytes → Decoder (Obj ω × Bytes)) (tag : ℕ) (s : Bytes) :
    Decoder (Obj ω × Bytes) :=
  match tag with
  | 0x02 => (check_type_check_len tag s).and_then fun p => .ok (.INTEGER (from_bytes_signed p.1), p.2)
  | 0x03 => (check_type_check_len tag s).and_then fun p =>
    .lift ((bit_string_contents p.1).map fun val => (.BIT_STRING val, p.2))
  | 0x04 => (check_type_check_len tag s).and_then fun p => .ok (.STRING p.1, p.2)
  | 0x06 => (check_type_check_len tag s).and_then fun p =>
    .lift ((oid_object p.1).map fun val => (.OID val, p.2))
  | 0x30 => (sequence_do_dec dec tag s).and_then fun p => .ok (.SEQUENCE p.1, p.2)
  | 0x31 => (sequence_do_dec dec tag s).and_then fun p => .ok (.SET p.1, p.2)
  | _ => (other tag s).and_then fun p => .ok (.other p.1, p.2)

/-- A decode at depth 0 has a budget. -/
def budgeted {α : Type} (depth : ℕ) (inside : Decoder α) : Decoder α :=
  if depth = 0 then ber_budget inside else inside

/-- `BERcodec_Object.do_dec`: the codec of the tag, which decodes the same octets again. -/
def object_do_dec (dec : Bytes → Decoder (Obj ω × Bytes)) (depth : ℕ) (s : Bytes) :
    Decoder (Obj ω × Bytes) :=
  if s = [] then .raise .empty_object
  else
    (BER_id_dec s).and_then fun p => budgeted depth (codec_do_dec other dec p.1 s)

/-- `BERcodec_Object.dec`, with `room` levels down to the recursion limit. -/
def dec_at : ℕ → Bytes → Decoder (Obj ω × Bytes)
  | 0, _ => .raise .recursion
  | room + 1, s =>
    budgeted (MAX_BER_DEPTH - room) (object_do_dec other (dec_at room) (MAX_BER_DEPTH - room) s)

/-- `BERcodec_Object.dec(s)` outside of any other decode. -/
def dec (s : Bytes) : Except BerError (Obj ω × Bytes) :=
  (dec_at other (MAX_BER_DEPTH + 1) s ⟨none, 0⟩).map Prod.fst

end Decoding

/-! ## Encoding -/

/-- The loop of `BER_len_enc`: at least `size` octets, the most significant first. -/
def len_octets (ll size : ℕ) : Bytes :=
  if ll = 0 ∧ size = 0 then [] else len_octets (ll / 256) (size - 1) ++ [UInt8.ofNat (ll % 256)]
termination_by ll + size
decreasing_by omega

/-- `BER_len_enc`: the short form where it is asked for and fits. -/
def BER_len_enc (ll size : ℕ) : Except BerError Bytes :=
  if ll ≤ 127 ∧ size = 0 then .ok [UInt8.ofNat ll]
  else
    let s := len_octets ll size
    if 127 < s.length then .error .len_enc else .ok (UInt8.ofNat (s.length ||| 0x80) :: s)

/-- Tag, length and contents. -/
def tlv (tag : UInt8) (size : ℕ) (content : Bytes) : Except BerError Bytes :=
  (BER_len_enc content.length size).map fun len => tag :: (len ++ content)

/-- The loop of `BERcodec_INTEGER.enc`: two's complement, the least significant octet first. -/
def int_octets (i : ℤ) : Bytes :=
  let low := UInt8.ofNat (i % 256).toNat
  if -127 ≤ i ∧ i < 0 then [low]
  else
    (if 128 ≤ i ∧ i ≤ 255 then [low, 0] else [low]) ++
      if i / 256 = 0 then [] else int_octets (i / 256)
termination_by i.natAbs
decreasing_by omega

/-- Every eight bits an octet: the `zip` of `BERcodec_BIT_STRING.enc`. -/
def pack : List Bool → Bytes
  | b7 :: b6 :: b5 :: b4 :: b3 :: b2 :: b1 :: b0 :: rest =>
    UInt8.ofNat ([b7, b6, b5, b4, b3, b2, b1, b0].foldl (fun a b => 2 * a + b.toNat) 0) :: pack rest
  | _ => []

/-- What `BERcodec_BIT_STRING.enc` makes of the bits: how many of the last octet are unused, and
the octets. -/
def bit_string_octets (s : List Bool) : Bytes :=
  let unused_bits := if s.length % 8 = 0 then 0 else 8 - s.length % 8
  UInt8.ofNat unused_bits :: pack (s ++ List.replicate unused_bits false)

/-- The loop of `BER_num_enc`; every octet but the last one says that more follow. -/
def num_octets (ll size : ℕ) (more : Bool) : Bytes :=
  if ll = 0 ∧ size = 0 then []
  else
    num_octets (ll / 128) (size - 1) true ++
      [UInt8.ofNat (if more then ll % 128 ||| 0x80 else ll % 128)]
termination_by ll + size
decreasing_by omega

def BER_num_enc (ll : ℕ) : Bytes := num_octets ll 1 false

/-- `int` of decimal digits. -/
def decimal_int (s : List Char) : Except BerError ℕ :=
  if s ≠ [] ∧ s.all Char.isDigit then .ok (Nat.ofDigitChars 10 s 0) else .error .python

/-- The numbers between the dots. -/
def oid_numbers (oid : List Char) : Except BerError (List ℕ) :=
  if oid = [] then .ok []
  else
    (((oid.dropWhile (· = '.')).rdropWhile (· = '.')).splitOn '.').mapM decimal_int

/-- The first two arcs are one number. -/
def joint : List ℕ → List ℕ
  | x :: y :: rest => (y + 40 * x) :: rest
  | lst => lst

/-- What `BERcodec_OID.enc` makes of the dotted text. -/
def oid_octets (oid : List Char) : Except BerError Bytes :=
  (oid_numbers oid).map fun lst => (joint lst).flatMap BER_num_enc

section Encoding

variable {ω : Type} (other_enc : ω → Except BerError Bytes)
  -- `conf.ASN1_default_long_size`
  (long : ℕ)

mutual

/-- `enc` of an object's codec. A `size` of none is the default: 0 but for SEQUENCE and SET. -/
def Obj.enc : Option ℕ → Obj ω → Except BerError Bytes
  | size, .INTEGER val => tlv 0x02 (size.getD 0) (int_octets val).reverse
  | size, .BIT_STRING val => tlv 0x03 (size.getD 0) (bit_string_octets val)
  | size, .STRING val => tlv 0x04 (size.getD 0) val
  | size, .OID val =>
    match oid_octets val with
    | .ok s => tlv 0x06 (size.getD 0) s
    | .error e => .error e
  | size, .SEQUENCE val =>
    match Obj.enc_all val with
    | .ok ll => tlv 0x30 (size.getD long) ll
    | .error e => .error e
  | size, .SET val =>
    match Obj.enc_all val with
    | .ok ll => tlv 0x31 (size.getD long) ll
    | .error e => .error e
  | _, .other o => other_enc o

/-- The elements of a constructed value, one behind another. -/
def Obj.enc_all : List (Obj ω) → Except BerError Bytes
  | [] => .ok []
  | x :: rest =>
    match Obj.enc none x with
    | .error e => .error e
    | .ok b =>
      match Obj.enc_all rest with
      | .error e => .error e
      | .ok bs => .ok (b ++ bs)

end

end Encoding

end Wiry.Ber
