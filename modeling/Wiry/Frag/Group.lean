/-
`Group` of `crates/wiry-core/src/frag.rs`: the fragments of one datagram, with
`complete`, `absorb` and `assemble`.

The `BTreeMap` of received ranges is a `SortedMap` from starts to ends. The loop
of `absorb` removes a range at every turn, so it is given as many turns as there
are ranges. The `work` counters, which exist for one test, are left out.
-/
import Wiry.Lib.Ranges
import Wiry.Packet.Checksum
import Wiry.Packet.Octets

set_option autoImplicit false

namespace Wiry.Frag

open Wiry.Packet

/-- `MAX_DATAGRAM`: Total Length is 16 bits, so nothing reassembles larger. -/
def MAX_DATAGRAM : ℕ := 65535

/-- `Head`: frame bytes through the header the reassembled datagram keeps, taken from the fragment
at offset zero. -/
structure Head where
  frame : Bytes
  ip_off : ℕ
  v6 : Bool
deriving DecidableEq, Repr

/-- `Group`. -/
structure Group where
  seq : ℕ
  /-- Positions of the fragments held. -/
  at_ : List ℕ := []
  head : Option Head := none
  data : Bytes := []
  /-- Merged, disjoint byte ranges already received, keyed on where each starts. -/
  got : SortedMap ℕ ℕ := .empty
  total : Option ℕ := none

/-- The range a payload `src` at `start` ends at. -/
def resized (data : Bytes) (end_ : ℕ) : Bytes := data ++ List.replicate (end_ - data.length) 0

/-- What `absorb` carries through its loop: the range it will insert, how far the payload has been
copied or was there before, the ranges left and the octets. -/
structure Absorbing where
  lo : ℕ
  hi : ℕ
  at_ : ℕ
  got : SortedMap ℕ ℕ
  data : Bytes

/-- `absorb` up to its loop: the range that starts at or below `start` is swallowed where it
reaches it. -/
def absorb_below (got : SortedMap ℕ ℕ) (data : Bytes) (start end_ : ℕ) : Absorbing :=
  match got.floor start with
  | some (a, b) =>
    if b ≥ start then ⟨a, max end_ b, max start b, got.remove a, data⟩
    else ⟨start, end_, start, got, data⟩
  | none => ⟨start, end_, start, got, data⟩

/-- `self.data[from..upto].copy_from_slice(..)` of the payload's octets there, where there are
any. -/
def copy_upto (data src : Bytes) (start from_ upto : ℕ) : Bytes :=
  if upto > from_ then put data from_ (slice src (from_ - start) (upto - start)) else data

/-- The loop of `absorb`, `n` turns of it: every range that starts inside the payload or touches
its end is swallowed, and the gap before it filled. -/
def absorb_loop (src : Bytes) (start end_ : ℕ) : ℕ → Absorbing → Absorbing
  | 0, s => s
  | n + 1, s =>
    match (s.got.ceil start).filter (·.1 ≤ end_) with
    | none => s
    | some (a, b) =>
      absorb_loop src start end_ n
        { s with
          data := copy_upto s.data src start s.at_ (min a end_)
          at_ := max s.at_ b
          hi := max s.hi b
          got := s.got.remove a }

namespace Group

/-- `Group::complete`. -/
def complete (g : Group) : Bool :=
  g.head.isSome && g.total.any fun t => g.got.first = some (0, t) ∧ g.got.length = 1

/-- `Group::absorb`: writes only the parts of `[start, start + src.len())` no earlier fragment
claimed. -/
def absorb (g : Group) (start : ℕ) (src : Bytes) : Group :=
  let end_ := start + src.length
  let s := absorb_loop src start end_ g.got.length
    (absorb_below g.got (resized g.data end_) start end_)
  { g with
    data := copy_upto s.data src start s.at_ end_
    got := s.got.insert s.lo s.hi }

/-- `Group::assemble`: the octets held behind the head, with the lengths and the checksum of the
whole datagram. -/
def assemble (g : Group) : Option Bytes :=
  match g.head with
  | none => none
  | some ⟨frame, off, true⟩ =>
    if off + 40 ≤ frame.length then
      let plen := frame.length - (off + 40) + g.data.length
      if plen > MAX_DATAGRAM then none
      else some (put frame (off + 4) (octets_of 2 plen) ++ g.data)
    else none
  | some ⟨frame, off, false⟩ =>
    if off ≤ frame.length then
      let ihl := frame.length - off
      let total := ihl + g.data.length
      if total > MAX_DATAGRAM then none
      else
        let frame := put frame (off + 2) (octets_of 2 total)
        let word := be16 frame (off + 6) &&& 0xc000
        let frame := put frame (off + 6) (octets_of 2 word.toNat)
        let frame := put frame (off + 10) [0, 0]
        let ck := ones_complement (slice frame off (off + ihl))
        some (put frame (off + 10) (octets_of 2 ck.toNat) ++ g.data)
    else none

end Group

end Wiry.Frag
