/-
The ASN.1 fields of `python/wiry/asn1fields.py` that the LDAP filters are made of, over the codecs
of `python/wiry/asn1/ber.py` and the budget a dissection runs in.

An exception leaves what it used of the budget used, since an optional member goes on behind one.
-/
import Wiry.Ber.Contents
import Wiry.Ber.Walk

set_option autoImplicit false

namespace Wiry.Asn1

open Packet (Bytes)
open Ber (Budget Run Raised BerError Elements)

/-! ## What is raised -/

inductive Failure where
  /-- An ASN1_Error, a BER_Decoding_Error among them: what an optional member is absent for. -/
  | asn1
  /-- A BER_Exception. -/
  | exception
  /-- A Python error of another class. -/
  | python
deriving DecidableEq

abbrev Decode (α : Type) : Type := Budget → Except Failure α × Budget

def failure : Raised Unit → Failure
  | .refused _ _ _ => .asn1
  | .asn1_error => .asn1
  | .too_many_elements => .exception
  | .recursion => .exception
  | .python => .python

namespace Decode

variable {α β : Type}

def ok (a : α) : Decode α := fun st => (.ok a, st)

def raise (e : Failure) : Decode α := fun st => (.error e, st)

def and_then (m : Decode α) (f : α → Decode β) : Decode β := fun st =>
  match m st with
  | (.ok a, st) => f a st
  | (.error e, st) => (.error e, st)

/-- A step of the codecs. -/
def of_run (m : Run Unit α) : Decode α := fun st =>
  match m st with
  | (.ok a, st) => (.ok a, st)
  | (.error e, st) => (.error (failure e), st)

/-- `with ber_budget():`, left with an exception as without one. -/
def in_budget (inside : Decode α) : Decode α := fun st =>
  let opened : Budget := if st.left.isSome then st else ⟨some Ber.MAX_BER_ELEMENTS, 0⟩
  let closed (st' : Budget) : Budget :=
    { left := if st.left.isSome then st'.left else none, nesting := st'.nesting - 1 }
  let entered : Budget := { opened with nesting := opened.nesting + 1 }
  if Ber.MAX_BER_DEPTH < entered.nesting then (.error .exception, closed entered)
  else
    match inside entered with
    | (.ok a, st') => (.ok a, closed st')
    | (.error e, st') => (.error e, closed st')

end Decode

section Fields

variable {α β : Type}

/-! ## Tagging -/

/-- `BER_tagging_dec` with an implicit tag, `safe` off. -/
def tagging_dec (implicit_tag : ℕ) (hidden_tag : UInt8) (s : Bytes) : Decode Bytes :=
  if s = [] then .ok s
  else
    (Decode.of_run (Ber.id_dec s)).and_then fun p =>
      if p.1 ≠ implicit_tag then .raise .asn1 else .ok (hidden_tag :: p.2)

/-- `BER_tagging_enc` with an implicit tag that is one octet. -/
def tagging_enc (implicit_tag : UInt8) (s : Bytes) : Bytes :=
  if s = [] then s else implicit_tag :: s.drop 1

/-! ## Primitive fields -/

/-- `BERcodec_STRING.dec(s)`. -/
def dec_string (s : Bytes) : Decode (Bytes × Bytes) :=
  .in_budget (.of_run (Ber.check_len 0x04 s))

/-- `BERcodec_BOOLEAN.dec(s)`. -/
def dec_boolean (s : Bytes) : Decode (Bool × Bytes) :=
  (Decode.in_budget (.of_run (Ber.check_len 0x01 s))).and_then fun p =>
    .ok (decide (Ber.from_bytes_signed p.1 ≠ 0), p.2)

/-- `ASN1F_field.m2i` with an implicit tag. -/
def implicit_m2i (implicit_tag : ℕ) (hidden_tag : UInt8) (dec : Bytes → Decode (α × Bytes))
    (s : Bytes) : Decode (α × Bytes) :=
  (tagging_dec implicit_tag hidden_tag s).and_then dec

/-- `ASN1F_optional.dissect`: absent where the field fails. -/
def optional (dissect : Bytes → Decode (α × Bytes)) (s : Bytes) : Decode (Option α × Bytes) :=
  fun st =>
    match dissect s st with
    | (.ok p, st) => (.ok (some p.1, p.2), st)
    | (.error .asn1, st) => (.ok (none, s), st)
    | (.error e, st) => (.error e, st)

/-! ## Constructed fields -/

/-- `ASN1F_SEQUENCE.m2i`: none where every member is set to None. -/
def sequence_m2i (members : Bytes → Decode (α × Bytes)) (s : Bytes) : Decode (Option α × Bytes) :=
  (Decode.of_run (Ber.check_len 0x30 s)).and_then fun p =>
    if p.1 = [] then .ok (none, p.2)
    else
      (members p.1).and_then fun q =>
        if q.2 ≠ [] then .raise .asn1 else .ok (some q.1, p.2)

/-- `Elements.leftover`. -/
def leftover (elts : Elements) (remain : Bytes) : Decode Elements :=
  .of_run (.lift (Ber.leftover elts remain))

/-- The loop of `ASN1F_SEQUENCE_OF.m2i`, `n` turns at most. An element takes an octet at least, so
as many turns as there are octets are enough. -/
def walk (extract_packet : Bytes → Decode (α × Bytes)) : ℕ → Elements → List α → Decode (List α)
  | 0, _, lst => .ok lst
  | n + 1, elts, lst =>
    match elts.next with
    | none => .ok lst
    | some (elt, elts) =>
      (extract_packet elt).and_then fun p =>
        (leftover elts p.2).and_then fun elts => walk extract_packet n elts (lst ++ [p.1])

/-- `ASN1F_SEQUENCE_OF.m2i` and, with its tag, `ASN1F_SET_OF.m2i`, over packets. -/
def of_m2i (tag : ℕ) (extract_packet : Bytes → Decode (α × Bytes)) (s : Bytes) :
    Decode (List α × Bytes) :=
  (Decode.of_run (Ber.check_len tag s)).and_then fun p =>
    (walk extract_packet p.1.length (Elements.new p.1) []).and_then fun lst => .ok (lst, p.2)

/-! ## Packets -/

/-- `extract_packet` of an ASN.1 packet: its root dissects inside one budget, and what that leaves
is taken off the packet again. -/
def extract_packet (root : Bytes → Decode (α × Bytes)) (s : Bytes) : Decode (α × Bytes) :=
  .in_budget (root s)

/-- `ASN1F_PACKET.m2i` with an implicit tag; `root_tag` is the tag of the class's root. -/
def packet_m2i (implicit_tag : ℕ) (root_tag : UInt8) (root : Bytes → Decode (α × Bytes))
    (s : Bytes) : Decode (α × Bytes) :=
  implicit_m2i implicit_tag root_tag (extract_packet root) s

/-! ## Encoding -/

-- `conf.ASN1_default_long_size`
variable (long : ℕ)

/-- An ASN1_STRING in its codec. -/
def enc_string (val : Bytes) : Except BerError Bytes := Ber.tlv 0x04 0 val

def enc_boolean (val : Bool) : Except BerError Bytes :=
  Ber.tlv 0x01 0 (Ber.int_octets (if val then 1 else 0)).reverse

def enc_sequence (content : Bytes) : Except BerError Bytes := Ber.tlv 0x30 long content

def enc_set (content : Bytes) : Except BerError Bytes := Ber.tlv 0x31 long content

end Fields

end Wiry.Asn1
