/-
`PyPktList::reassembled` of `crates/wiry-py/src/lib.rs`: the messages of reassembled streams, framed
again, in the place of the packets that carried them.

A frame that is asked for stands beside the extent it is to carry, and is there or refused: what the
source keeps as `rows` are those that are there.
-/
import Wiry.Lib.Extents
import Wiry.Stream.Owners

set_option autoImplicit false
set_option linter.dupNamespace false

namespace Wiry.Stream

open Wiry.Packet Wiry.Extents

/-- Octets of framing the message splice may add to its input. -/
def MAX_REFRAME_GROWTH : ℕ := 64 <<< 20

/-- A packet of the list: `Record`, with the octets it names. -/
structure Record where
  data : Bytes
  sec : ℕ
  frac : ℕ
  wirelen : ℕ
deriving DecidableEq, Repr

/-- `Body`: a packet that passes through is named by its position. -/
inductive RowBody where
  | Src (i : ℕ)
  | Built (f : Bytes)
deriving DecidableEq, Repr

/-- The octets of a direction that a frame carries. -/
structure Part where
  stream : ℕ
  dir : Fin 2
  at_ : ℕ
  len : ℕ
deriving DecidableEq, Repr

/-- A frame asked for with the headers of packet `pkt`, `none` where it was refused. -/
structure Asked where
  pkt : ℕ
  part : Part
  frame : Option Bytes
deriving DecidableEq, Repr

/-- A row of the new list: the position it sorts by, what it holds and its tag, 0 passed through
and 1 framed here. -/
structure Row where
  at_ : ℕ
  body : RowBody
  kind : ℕ
  part : Option Part
deriving DecidableEq, Repr

/-- The row a frame makes. -/
def Asked.row (a : Asked) : Option Row := a.frame.map fun f => ⟨a.pkt, .Built f, 1, some a.part⟩

/-! ## The messages -/

/-- The state of the first loop. -/
structure Framing where
  built : ℕ := 0
  asked : List Asked := []
  /-- Message extents per half. -/
  claimed : ℕ → Fin 2 → List (ℕ × ℕ) := fun _ _ => []
  /-- The positions of the packets whose `eaten` is set. -/
  eaten : List ℕ := []

section Frames

variable (L : Layers) (frames : List Bytes) (link : ProtoId) (streams : List Stream)

/-- `bytes_at`. -/
def bytes_at (i : ℕ) : Bytes := frames.getD i []

/-- The half a message lies in. -/
def half_of (m : Message) : Half UInt8 := (streams[m.stream]?.map fun s => s.halves m.dir).getD {}

/-- The octets of a message. -/
def body_of (m : Message) : Bytes := slice (half_of streams m).data m.at_ (m.at_ + m.len)

/-- The frames of one message: as many as the room behind the headers takes. -/
def message_frames (s : Splice) (m : Message) : List Asked :=
  let room := max (room s) 1
  (chunks room (body_of streams m)).zipIdx.map fun c =>
    ⟨m.pkt, ⟨m.stream, m.dir, m.at_ + c.2 * room, c.1.length⟩,
      reframe_with (bytes_at frames m.pkt) s (UInt32.ofNat (m.skip + c.2 * room)) c.1⟩

/-- What a message costs: its octets, and the headers of each of its frames. -/
def cost (s : Splice) (m : Message) : ℕ :=
  let room := max (room s) 1
  let len := (body_of streams m).length
  len + (len + room - 1) / room * s.payload

/-- One turn of the loop over the messages. -/
def Framing.turn (st : Framing) (s : Splice) (m : Message) : Framing where
  built := st.built + ((message_frames frames streams s m).map fun a => (a.frame.getD []).length).sum
  asked := st.asked ++ message_frames frames streams s m
  claimed := Function.update st.claimed m.stream
    (Function.update (st.claimed m.stream) m.dir (st.claimed m.stream m.dir ++ [(m.at_, m.len)]))
  eaten := st.eaten ++ ((half_of streams m).segs_in m.at_ m.len).map Seg.pkt

/-- The loop over the messages; `input` is the octets of the list. -/
def frame_messages (input : ℕ) : List Message → Framing → Framing
  | [], st => st
  | m :: ms, st =>
    match splice L (bytes_at frames m.pkt) link with
    | none => frame_messages input ms st
    | some s =>
      -- past the bound the rest of the list passes through as captured
      if st.built + cost streams s m > input + MAX_REFRAME_GROWTH then st
      else frame_messages input ms (st.turn frames streams s m)

/-! ## What no message claimed -/

/-- The frames of what the extents leave of a segment. One whose packet has no headers to splice
is passed over, as one whose frames are all refused. -/
def seg_rests (i : ℕ) (d : Fin 2) (h : Half UInt8) (ext : List (ℕ × ℕ)) (seg : Seg) : List Asked :=
  let src := bytes_at frames seg.pkt
  (left (seg.at_ + seg.len) seg.at_ ext).map fun x =>
    ⟨seg.pkt, ⟨i, d, x.1, x.2⟩, (splice L src link).bind fun sp =>
      reframe_with src sp (UInt32.ofNat (x.1 - seg.at_)) (slice h.data x.1 (x.1 + x.2))⟩

/-- The walk over the segments of a half, `ext` being the extents from `first` on. -/
def half_rests (i : ℕ) (d : Fin 2) (h : Half UInt8) (eaten : List ℕ) :
    List (ℕ × ℕ) → List Seg → List Asked
  | _, [] => []
  | ext, seg :: segs =>
    if seg.pkt ∈ eaten then
      let ext := ext.dropWhile fun e => e.1 + e.2 ≤ seg.at_
      seg_rests L frames link i d h ext seg ++ half_rests i d h eaten ext segs
    else half_rests i d h eaten ext segs

/-- The order `sort_unstable` sorts extents by. -/
def by_extent (e f : ℕ × ℕ) : Prop := e.1 < f.1 ∨ e.1 = f.1 ∧ e.2 ≤ f.2

instance : DecidableRel by_extent := fun _ _ => inferInstanceAs (Decidable (_ ∨ _))

/-- The frames of what no message claimed in one half. -/
def rests_of (st : Framing) (i : ℕ) (d : Fin 2) (h : Half UInt8) : List Asked :=
  let ext := (st.claimed i d).insertionSort by_extent
  if ext = [] then [] else half_rests L frames link i d h st.eaten ext h.segs

/-- The second loop: what no message claimed, in every half. -/
def rests (st : Framing) : List Asked :=
  streams.zipIdx.flatMap fun s =>
    rests_of L frames link st s.2 0 (s.1.halves 0) ++ rests_of L frames link st s.2 1 (s.1.halves 1)

/-! ## The new list -/

/-- The first loop, over every message found. -/
def framing : Framing :=
  frame_messages L frames link streams (frames.map List.length).sum (app_messages L streams) {}

/-- Every frame asked for. -/
def asked : List Asked :=
  let st := framing L frames link streams
  st.asked ++ rests L frames link streams st

/-- The packets that pass through. -/
def passed (eaten : List ℕ) : List Row :=
  ((List.range frames.length).filter fun i => i ∉ eaten).map fun i => ⟨i, .Src i, 0, none⟩

/-- The order `sort_by_key(|(at, _, kind)| (*at, *kind))` sorts by. -/
def by_place (r s : Row) : Prop := r.at_ < s.at_ ∨ r.at_ = s.at_ ∧ r.kind ≤ s.kind

instance : DecidableRel by_place := fun _ _ => inferInstanceAs (Decidable (_ ∨ _))

/-- The rows of the new list, in order. -/
def rows : List Row :=
  ((asked L frames link streams).filterMap Asked.row ++
    passed frames (framing L frames link streams).eaten).insertionSort by_place

/-- The record of a row, with its tag. -/
def Row.record (list : List Record) (r : Row) : Record × ℕ :=
  let bytes := match r.body with
    | .Src i => (list.map Record.data).getD i []
    | .Built f => f
  let of := list.getD r.at_ ⟨[], 0, 0, 0⟩
  let len := bytes.length % 2 ^ 32
  (⟨bytes, of.sec, of.frac, if r.kind = 1 then len else max of.wirelen len⟩, r.kind)

end Frames

/-- The frames `reassembled` pushes: positions are 32 bits wide. -/
def positioned (frames : List Bytes) (link : ProtoId) : List Push :=
  frames.zipIdx.map fun f => ⟨f.2 % 2 ^ 32, f.1, link⟩

/-- The streams `reassembled` works on, the hash map listing its keys as `keys`. -/
def streams_of (L : Layers) (frames : List Bytes) (link : ProtoId) (keys : List Key) :
    List Stream := (pushes L (positioned frames link)).finish keys

/-- `reassembled`: the records of the new list, each with its tag. -/
def reassembled (L : Layers) (list : List Record) (link : ProtoId) (keys : List Key) :
    List (Record × ℕ) :=
  let frames := list.map Record.data
  (rows L frames link (streams_of L frames link keys)).map (Row.record list)

end Wiry.Stream
