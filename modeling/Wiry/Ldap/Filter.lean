/-
LDAP search filters: the packets `LDAP_SubstringFilterInitial` to `LDAP_Filter` of
`python/wiry/layers/ldap.py`, their octets and their dissection.

A filter here is an LDAP_Filter with the packet of its alternative, whose members hold octets.
-/
import Wiry.Asn1.Fields

set_option autoImplicit false

namespace Wiry.Ldap

open Packet (Bytes)
open Ber (BerError)
open Asn1

/-! ## Filters -/

/-- LDAP_SubstringFilterStr. -/
inductive Substring where
  | initial (val : Bytes)
  | any (val : Bytes)
  | final (val : Bytes)
deriving DecidableEq

inductive Filter where
  | And (vals : List Filter)
  | Or (vals : List Filter)
  | Not (val : Filter)
  | EqualityMatch (attributeType attributeValue : Bytes)
  | Substrings (type : Bytes) (filters : List Substring)
  | GreaterOrEqual (attributeType attributeValue : Bytes)
  | LessOrEqual (attributeType attributeValue : Bytes)
  | Present (present : Bytes)
  | ApproxMatch (attributeType attributeValue : Bytes)
  | ExtensibleMatch (matchingRule type : Option Bytes) (matchValue : Bytes) (dnAttributes : Bool)
  /-- The packet of a constructed alternative whose members are all None. -/
  | hollow (tag : UInt8)

/-! ## Dissection -/

/-- The alternative of LDAP_SubstringFilterStr's CHOICE that a tag picks. -/
def substring_choice (tag : ℕ) (s : Bytes) : Decode (Substring × Bytes) :=
  match tag with
  | 0x80 => (packet_m2i 0x80 0x04 dec_string s).and_then fun q => .ok (.initial q.1, q.2)
  | 0x81 => (packet_m2i 0x81 0x04 dec_string s).and_then fun q => .ok (.any q.1, q.2)
  | 0x82 => (packet_m2i 0x82 0x04 dec_string s).and_then fun q => .ok (.final q.1, q.2)
  | _ => .raise .asn1

/-- The root of LDAP_SubstringFilterStr. -/
def substring_root (s : Bytes) : Decode (Substring × Bytes) :=
  if s = [] then .raise .asn1
  else (Decode.of_run (Ber.id_dec s)).and_then fun p => substring_choice p.1 s

def substring_members (s : Bytes) : Decode ((Bytes × List Substring) × Bytes) :=
  (dec_string s).and_then fun p =>
    (of_m2i 0x30 (extract_packet substring_root) p.2).and_then fun q => .ok ((p.1, q.1), q.2)

/-- The root of LDAP_SubstringFilter. -/
def substring_filter_root : Bytes → Decode (Option (Bytes × List Substring) × Bytes) :=
  sequence_m2i substring_members

def assertion_members (s : Bytes) : Decode ((Bytes × Bytes) × Bytes) :=
  (dec_string s).and_then fun p => (dec_string p.2).and_then fun q => .ok ((p.1, q.1), q.2)

/-- The root of AttributeValueAssertion and of the four filters that share it. -/
def assertion_root : Bytes → Decode (Option (Bytes × Bytes) × Bytes) :=
  sequence_m2i assertion_members

def extensible_members (s : Bytes) : Decode (Filter × Bytes) :=
  (optional (implicit_m2i 0x81 0x04 dec_string) s).and_then fun matchingRule =>
    (optional (implicit_m2i 0x81 0x04 dec_string) matchingRule.2).and_then fun type =>
      (implicit_m2i 0x82 0x04 dec_string type.2).and_then fun matchValue =>
        (implicit_m2i 0x84 0x01 dec_boolean matchValue.2).and_then fun dnAttributes =>
          .ok (.ExtensibleMatch matchingRule.1 type.1 matchValue.1 dnAttributes.1, dnAttributes.2)

/-- The root of LDAP_FilterExtensibleMatch. -/
def extensible_root : Bytes → Decode (Option Filter × Bytes) := sequence_m2i extensible_members

/-- An alternative whose root is a SEQUENCE. -/
def constructed {α : Type} (tag : UInt8) (root : Bytes → Decode (Option α × Bytes)) (f : α → Filter)
    (s : Bytes) : Decode (Filter × Bytes) :=
  (packet_m2i tag.toNat 0x30 root s).and_then fun p => .ok (p.1.elim (.hollow tag) f, p.2)

/-- The alternative of LDAP_Filter's CHOICE that a tag picks; `filter` is LDAP_Filter again. -/
def filter_choice (filter : Bytes → Decode (Filter × Bytes)) (tag : ℕ) (s : Bytes) :
    Decode (Filter × Bytes) :=
  match tag with
  | 0xA0 => (packet_m2i 0xA0 0x31 (of_m2i 0x31 filter) s).and_then fun q => .ok (.And q.1, q.2)
  | 0xA1 => (packet_m2i 0xA1 0x31 (of_m2i 0x31 filter) s).and_then fun q => .ok (.Or q.1, q.2)
  | 0xA2 => constructed 0xA2 (sequence_m2i filter) .Not s
  | 0xA3 => constructed 0xA3 assertion_root (fun x => .EqualityMatch x.1 x.2) s
  | 0xA4 => constructed 0xA4 substring_filter_root (fun x => .Substrings x.1 x.2) s
  | 0xA5 => constructed 0xA5 assertion_root (fun x => .GreaterOrEqual x.1 x.2) s
  | 0xA6 => constructed 0xA6 assertion_root (fun x => .LessOrEqual x.1 x.2) s
  | 0x87 => (packet_m2i 0x87 0x04 dec_string s).and_then fun q => .ok (.Present q.1, q.2)
  | 0xA8 => constructed 0xA8 assertion_root (fun x => .ApproxMatch x.1 x.2) s
  | 0xA9 => constructed 0xA9 extensible_root id s
  | _ => .raise .asn1

/-- The root of LDAP_Filter, `room` packets of it deep at most; each has entered the budget, which
refuses before they are used up. -/
def filter_root : ℕ → Bytes → Decode (Filter × Bytes)
  | 0, _ => .raise .exception
  | room + 1, s =>
    if s = [] then .raise .asn1
    else
      (Decode.of_run (Ber.id_dec s)).and_then fun p =>
        filter_choice (extract_packet (filter_root room)) p.1 s

/-- `LDAP_Filter(b)` of octets that are there: the filter, and the octets of its Raw payload. -/
def LDAP_Filter (b : Bytes) : Except Failure (Filter × Bytes) :=
  (extract_packet (filter_root Ber.MAX_BER_DEPTH) b ⟨none, 0⟩).1

/-! ## Building -/

section Building

-- `conf.ASN1_default_long_size`
variable (long : ℕ)

def Substring.build : Substring → Except BerError Bytes
  | .initial val => (enc_string val).map (tagging_enc 0x80)
  | .any val => (enc_string val).map (tagging_enc 0x81)
  | .final val => (enc_string val).map (tagging_enc 0x82)

/-- Octets one behind another. -/
def joined {α : Type} (build : α → Except BerError Bytes) : List α → Except BerError Bytes
  | [] => .ok []
  | x :: xs =>
    match build x with
    | .error e => .error e
    | .ok b => (joined build xs).map (b ++ ·)

/-- A SEQUENCE of members. -/
def sequence_build (members : List (Except BerError Bytes)) : Except BerError Bytes :=
  match joined id members with
  | .error e => .error e
  | .ok content => enc_sequence long content

/-- What `ASN1F_CHOICE.i2m` makes of the packet of an alternative. -/
def alternative (tag : UInt8) (s : Except BerError Bytes) : Except BerError Bytes :=
  s.map (tagging_enc tag)

def assertion_build (attributeType attributeValue : Bytes) : Except BerError Bytes :=
  sequence_build long [enc_string attributeType, enc_string attributeValue]

/-- A member that may be None. -/
def optional_build (tag : UInt8) : Option Bytes → Except BerError Bytes
  | none => .ok []
  | some val => (enc_string val).map (tagging_enc tag)

mutual

/-- `bytes` of an LDAP_Filter. -/
def Filter.build : Filter → Except BerError Bytes
  | .And vals =>
    match build_all vals with
    | .error e => .error e
    | .ok content => alternative 0xA0 (enc_set long content)
  | .Or vals =>
    match build_all vals with
    | .error e => .error e
    | .ok content => alternative 0xA1 (enc_set long content)
  | .Not val =>
    match val.build with
    | .error e => .error e
    | .ok content => alternative 0xA2 (enc_sequence long content)
  | .EqualityMatch t v => alternative 0xA3 (assertion_build long t v)
  | .Substrings type filters =>
    alternative 0xA4 (sequence_build long [enc_string type,
      match joined Substring.build filters with
      | .error e => .error e
      | .ok content => enc_sequence long content])
  | .GreaterOrEqual t v => alternative 0xA5 (assertion_build long t v)
  | .LessOrEqual t v => alternative 0xA6 (assertion_build long t v)
  | .Present present => alternative 0x87 (enc_string present)
  | .ApproxMatch t v => alternative 0xA8 (assertion_build long t v)
  | .ExtensibleMatch matchingRule type matchValue dnAttributes =>
    alternative 0xA9 (sequence_build long [optional_build 0x81 matchingRule,
      optional_build 0x81 type, optional_build 0x82 (some matchValue),
      (enc_boolean dnAttributes).map (tagging_enc 0x84)])
  | .hollow tag => alternative tag (enc_sequence long [])

def build_all : List Filter → Except BerError Bytes
  | [] => .ok []
  | f :: fs =>
    match f.build with
    | .error e => .error e
    | .ok b => (build_all fs).map (b ++ ·)

end

end Building

/-! ## Trees and their limits -/

mutual

/-- Every mandatory member is there. -/
def Filter.whole : Filter → Bool
  | .And vals => all_whole vals
  | .Or vals => all_whole vals
  | .Not val => val.whole
  | .hollow _ => false
  | _ => true

def all_whole : List Filter → Bool
  | [] => true
  | f :: fs => f.whole && all_whole fs

end

mutual

/-- No extensible match is among them. -/
def Filter.plain : Filter → Bool
  | .And vals => all_plain vals
  | .Or vals => all_plain vals
  | .Not val => val.plain
  | .ExtensibleMatch _ _ _ _ => false
  | _ => true

def all_plain : List Filter → Bool
  | [] => true
  | f :: fs => f.plain && all_plain fs

end

mutual

/-- How many budgets a dissection has open at once: one for each packet inside another, and one for
the decode of a value. -/
def Filter.nesting : Filter → ℕ
  | .And vals => nesting_all vals + 2
  | .Or vals => nesting_all vals + 2
  | .Not val => val.nesting + 2
  | .Substrings _ filters => if filters = [] then 3 else 5
  | _ => 3

def nesting_all : List Filter → ℕ
  | [] => 0
  | f :: fs => max f.nesting (nesting_all fs)

end

mutual

/-- How many identifiers a dissection reads. -/
def Filter.identifiers : Filter → ℕ
  | .And vals => identifiers_all vals + 3
  | .Or vals => identifiers_all vals + 3
  | .Not val => val.identifiers + 3
  | .Substrings _ filters => 3 * filters.length + 5
  | .Present _ => 3
  | .ExtensibleMatch matchingRule type _ _ =>
    (if matchingRule.isSome then 2 else 1) + (if type.isSome then 2 else 1) + 7
  | _ => 5

def identifiers_all : List Filter → ℕ
  | [] => 0
  | f :: fs => f.identifiers + identifiers_all fs

end

end Wiry.Ldap
