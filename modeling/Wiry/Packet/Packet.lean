/-
`Packet` of `crates/wiry-core/src/packet.rs`: a buffer, the layers it is read
as, and what the next serialisation must recompute or leave alone.

A name that is not a field, a layer that is not there and an octet past the end
are all answered as the source answers them, so every reader is total.
-/
import Wiry.Packet.Dissect
import Wiry.Packet.Proto

set_option autoImplicit false

namespace Wiry

open Packet (Bytes LayerSpan ProtoId)

structure Packet where
  buf : Bytes
  spans : List LayerSpan
  /-- The layers whose computed fields need recomputing, a bit each. -/
  dirty : UInt32
  /-- A write changed the octet count, so the length fields still describe the old extent. -/
  resized : Bool
  /-- Computed fields the user wrote by hand. -/
  pinned : List (ℕ × ProtoId × String)

namespace Packet

/-- `framing_at`. -/
def framing_at (spans : List LayerSpan) (layer : ℕ) : ℕ :=
  match layer with
  | 0 => 0
  | i + 1 =>
    match spans[i]?, spans[i + 1]? with
    | some p, some s => framing_octets p.proto s.proto
    | _, _ => 0

def header (pkt : Packet) (layer : ℕ) : Bytes :=
  match pkt.spans[layer]? with
  | some s => s.header pkt.buf
  | none => []

def framing (pkt : Packet) (layer : ℕ) : ℕ := framing_at pkt.spans layer

def active_field (R : Registry) (pkt : Packet) (layer : ℕ) (name : String) : Option FieldDesc :=
  match pkt.spans[layer]? with
  | some s => R.active_field_of s.proto (0 < pkt.framing layer) (pkt.header layer) name
  | none => none

/-- `is_pinned`: a computed field the user assigned, which recomputation leaves alone. -/
def is_pinned (pkt : Packet) (layer : ℕ) (name : String) : Bool :=
  match pkt.spans[layer]? with
  | some s => (layer, s.proto, name) ∈ pkt.pinned
  | none => false

end Packet

end Wiry
