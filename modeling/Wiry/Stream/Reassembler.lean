/-
`Reassembler` of `crates/wiry-core/src/stream.rs`: the streams being tracked, the
queue their eviction reads, and `push`, `evict`, `retire` and `finish`.

The hash map is an association list without repeated keys. The order in which
the source's `finish` meets its keys is not fixed by anything it can see, so
`finish` takes that order as an argument. The two `work` counters, which exist
for one test, are left out. `pos` is a `u32` in the source.
-/
import Wiry.Lib.Recency
import Wiry.Stream.Build
import Wiry.Stream.Inspect
import Mathlib.Data.List.Sort

set_option autoImplicit false
set_option linter.dupNamespace false

namespace Wiry.Stream

open Wiry.Packet

/-! ## Streams -/

/-- `Stream`: one reassembled connection. `halves 0` runs `src:sport > dst:dport`. -/
structure Stream where
  src : Addr
  dst : Addr
  sport : UInt16
  dport : UInt16
  v6 : Bool
  /-- Position of the first packet seen on this stream. -/
  first : ℕ
  evicted : Bool
  halves : Fin 2 → Half UInt8

/-- `Live`: a connection being reassembled. -/
structure Live where
  key_src : Addr
  key_dst : Addr
  sport : UInt16
  dport : UInt16
  v6 : Bool
  first : ℕ
  /-- The stamp of its last touch. -/
  seq : ℕ
  build : Fin 2 → Build UInt8

instance two_directions : NeZero 2 := ⟨by decide⟩

namespace Live

/-- The stream a segment starts. A SYN-ACK comes from the server, so its reverse is direction 0. -/
def opened (pos stamp : ℕ) (s : Segment) : Live :=
  let client := s.flags &&& SYN ≠ 0 ∧ s.flags &&& ACK ≠ 0
  { key_src := if client then s.dst else s.src
    key_dst := if client then s.src else s.dst
    sport := if client then s.dport else s.sport
    dport := if client then s.sport else s.dport
    v6 := s.v6
    first := pos
    seq := stamp
    build := fun _ => {} }

/-- The direction a segment runs in. -/
def dir (l : Live) (s : Segment) : Fin 2 := if l.key_src ≠ s.src ∨ l.sport ≠ s.sport then 1 else 0

/-- `live.build[dir].feed(..)`. -/
def fed (l : Live) (s : Segment) (data : Bytes) (pos : ℕ) : Live :=
  let dir := l.dir s
  { l with build := Function.update l.build dir ((l.build dir).feed s.seq s.flags data pos) }

/-- Octets both directions hold behind gaps. -/
def held_bytes (l : Live) : ℕ := (l.build 0).held_bytes + (l.build 1).held_bytes

/-- The stream a live connection is handed back as. -/
def stream (l : Live) (evicted : Bool) : Stream where
  src := l.key_src
  dst := l.key_dst
  sport := l.sport
  dport := l.dport
  v6 := l.v6
  first := l.first
  evicted := evicted
  halves d := (l.build d).finish

end Live

/-! ## The reassembler -/

/-- `Reassembler`. -/
structure Reassembler where
  live : AList fun _ : Key => Live := ∅
  /-- Stamped, so a stale entry cannot evict a stream that later reclaimed its key. -/
  order : List (ℕ × Key) := []
  seq : ℕ := 0
  held : ℕ := 0
  out : List Stream := []

namespace Reassembler

/-- `Reassembler::retire`, of a connection already taken out of `live`. -/
def retire (r : Reassembler) (l : Live) (evicted : Bool) : Reassembler :=
  { r with
    held := r.held - l.held_bytes
    out := r.out ++ [l.stream evicted] }

/-- `live.remove(&key)` of the connection found there, and its `retire`. -/
def take_out (r : Reassembler) (key : Key) (l : Live) (evicted : Bool) : Reassembler :=
  ({ r with live := r.live.erase key }).retire l evicted

/-- The condition of the loop in `evict`. -/
def crowded (r : Reassembler) : Prop :=
  r.live.keys.length > MAX_STREAMS ∨ r.held > MAX_HELD_TOTAL

instance (r : Reassembler) : Decidable r.crowded := inferInstanceAs (Decidable (_ ∨ _))

/-- One turn of the loop in `evict`: the front of `order` leaves, and the connection it names
leaves with it where it is that connection's last touch. -/
def evict_turn (r : Reassembler) (stamp : ℕ) (key : Key) (rest : List (ℕ × Key)) : Reassembler :=
  let r := { r with order := rest }
  match r.live.lookup key with
  | some l => if l.seq = stamp then r.take_out key l true else r
  | none => r

@[simp] theorem order_evict_turn (r : Reassembler) (stamp : ℕ) (key : Key)
    (rest : List (ℕ × Key)) : (r.evict_turn stamp key rest).order = rest := by
  unfold evict_turn
  dsimp only
  split
  · split <;> rfl
  · rfl

/-- The loop in `evict`. -/
def evict_loop (r : Reassembler) : Reassembler :=
  if r.crowded then
    match _h : r.order with
    | [] => r
    | (stamp, key) :: rest => (r.evict_turn stamp key rest).evict_loop
  else r
termination_by r.order.length
decreasing_by simp_all

/-- The sweep at the end of `evict`: every touch leaves a stale entry, and they go once `order`
is four times the live set. -/
def sweep (r : Reassembler) : Reassembler :=
  if r.order.length > 4 * r.live.keys.length + 4 * ORIGIN_WINDOW then
    { r with order := r.order.filter (Recency.current Live.seq r.live) }
  else r

/-- `Reassembler::evict`. -/
def evict (r : Reassembler) : Reassembler := r.evict_loop.sweep

/-- The connection a segment is fed to, as this push finds or makes it. -/
def entry (r : Reassembler) (pos : ℕ) (s : Segment) : Live :=
  { (r.live.lookup s.key).getD (Live.opened pos r.seq s) with seq := r.seq }

/-- `push` of a frame that carries a segment, up to its call of `evict`. -/
def touch (r : Reassembler) (pos : ℕ) (s : Segment) (data : Bytes) : Reassembler :=
  let live := r.entry pos s
  let dir := live.dir s
  let before := (live.build dir).held_bytes
  let fed := live.fed s data pos
  { r with
    seq := r.seq + 1
    live := r.live.insert s.key fed
    held := r.held + (fed.build dir).held_bytes - before
    order := r.order ++ [(r.seq, s.key)] }

/-- `Reassembler::push`. -/
def push (L : Layers) (r : Reassembler) (pos : ℕ) (buf : Bytes) (link : ProtoId) : Reassembler :=
  match inspect L buf link with
  | some s => (r.touch pos s (slice buf s.at_ s.end_)).evict
  | none => r

/-- One turn of the loop in `finish`. -/
def finish_turn (r : Reassembler) (k : Key) : Reassembler :=
  match r.live.lookup k with
  | some l => r.take_out k l false
  | none => r

/-- The loop in `finish` over the keys, in the order the hash map lists them. -/
def finish_loop (r : Reassembler) (keys : List Key) : Reassembler := keys.foldl finish_turn r

/-- The order `sort_by_key(|s| s.first)` sorts by. -/
def by_first (s t : Stream) : Prop := s.first ≤ t.first

instance : DecidableRel by_first := fun s t => inferInstanceAs (Decidable (s.first ≤ t.first))

/-- `Reassembler::finish`; `sort_by_key` is stable, as insertion sort is. -/
def finish (r : Reassembler) (keys : List Key) : List Stream :=
  (r.finish_loop keys).out.insertionSort by_first

end Reassembler

/-! ## Runs -/

/-- One frame as it is pushed. -/
structure Push where
  pos : ℕ
  buf : Bytes
  link : ProtoId

/-- The segment a pushed frame carries. -/
def Push.segment (L : Layers) (p : Push) : Option Segment := inspect L p.buf p.link

/-- The payload of the segment. -/
def Push.data (p : Push) (s : Segment) : Bytes := slice p.buf s.at_ s.end_

/-- `push` of one frame. -/
def Reassembler.take (L : Layers) (r : Reassembler) (p : Push) : Reassembler :=
  r.push L p.pos p.buf p.link

/-- The state after a sequence of frames. -/
def pushes (L : Layers) (ps : List Push) : Reassembler := ps.foldl (Reassembler.take L) {}

/-- The frames `reassemble` pushes: positions saturate at `u32::MAX`. -/
def numbered (frames : List Bytes) (link : ProtoId) : List Push :=
  frames.zipIdx.map fun f => ⟨min f.2 (2 ^ 32 - 1), f.1, link⟩

/-- `reassemble`, the hash map listing its keys as `keys`. -/
def reassemble (L : Layers) (frames : List Bytes) (link : ProtoId) (keys : List Key) :
    List Stream := (pushes L (numbered frames link)).finish keys

theorem Reassembler.take_of_some {L : Layers} {p : Push} {s : Segment} (r : Reassembler)
    (h : p.segment L = some s) : r.take L p = (r.touch p.pos s (p.data s)).evict := by
  unfold Push.segment at h
  unfold take push
  rw [h]
  rfl

theorem Reassembler.take_of_none {L : Layers} {p : Push} (r : Reassembler)
    (h : p.segment L = none) : r.take L p = r := by
  unfold Push.segment at h
  unfold take push
  rw [h]

theorem pushes_append_singleton (L : Layers) (ps : List Push) (p : Push) :
    pushes L (ps ++ [p]) = (pushes L ps).take L p := by
  simp [pushes]

/-- What holds at the start and is kept by every frame, those without a segment doing nothing,
holds after every run. -/
theorem pushes_induction {L : Layers} {P : List Push → Reassembler → Prop} (start : P [] {})
    (skip : ∀ ps p, p.segment L = none → P ps (pushes L ps) → P (ps ++ [p]) (pushes L ps))
    (step : ∀ ps p s, p.segment L = some s → P ps (pushes L ps) →
      P (ps ++ [p]) ((pushes L ps).touch p.pos s (p.data s)).evict)
    (ps : List Push) : P ps (pushes L ps) := by
  induction ps using List.reverseRecOn with
  | nil => exact start
  | append_singleton ps p ih =>
    rw [pushes_append_singleton]
    rcases hs : p.segment L with - | s
    · rw [Reassembler.take_of_none _ hs]
      exact skip ps p hs ih
    · rw [Reassembler.take_of_some _ hs]
      exact step ps p s hs ih

end Wiry.Stream
