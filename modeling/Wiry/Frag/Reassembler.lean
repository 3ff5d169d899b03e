/-
`inspect`, `Reassembler` and `defragment` of `crates/wiry-core/src/frag.rs`.

The hash map is an association list without repeated keys. `finish` drains it in
an order fixed by nothing the source can see, so it takes that order as an
argument. The `work` counters, which exist for one test, are left out. Positions
are `u32` in the source, and saturate there.
-/
import Mathlib.Data.List.Sort
import Wiry.Lib.Recency
import Wiry.Frag.Split

set_option autoImplicit false
set_option linter.dupNamespace false

namespace Wiry.Frag

open Wiry.Packet

/-- `MAX_INFLIGHT`: unfinished datagrams held at once. -/
def MAX_INFLIGHT : ℕ := 1024

/-- `MAX_BUFFERED`: bytes held across all unfinished datagrams. -/
def MAX_BUFFERED : ℕ := 16 * 2 ^ 20

/-- `MAX_FRAGS`: fragments one datagram may be fed. -/
def MAX_FRAGS : ℕ := 8192

/-- `Piece`: what one input frame turned into. -/
inductive Piece where
  /-- Carried no fragment. -/
  | Whole (pos : ℕ)
  /-- Reassembled, at the position of its first fragment. -/
  | Complete (pos : ℕ) (frame : Bytes)
  /-- A fragment whose datagram never completed. -/
  | Incomplete (pos : ℕ)
deriving DecidableEq, Repr

/-- `Piece::at`. -/
def Piece.at_ : Piece → ℕ
  | .Whole i => i
  | .Complete i _ => i
  | .Incomplete i => i

/-! ## What a frame carries -/

/-- `Key`. -/
structure Key where
  src : Addr
  dst : Addr
  id : UInt32
  proto : UInt8
  v6 : Bool
deriving DecidableEq, Repr

/-- `Found`. -/
structure Found where
  key : Key
  at_ : ℕ
  more : Bool
  head : Option Head
  data_at : ℕ
  data_end : ℕ

/-- The IPv4 arm of `inspect`. -/
def inspect_v4 (buf : Bytes) (off : ℕ) : Option Found :=
  match v4_extent buf off with
  | none => none
  | some (ihl, end_) =>
    let word := be16 buf (off + 6)
    let at_ := (word &&& 0x1fff).toNat * 8
    let more : Bool := word &&& 0x2000 ≠ 0
    if at_ = 0 ∧ more = false then none
    else
      some
        { key := ⟨wide (slice buf (off + 12) (off + 16)), wide (slice buf (off + 16) (off + 20)),
            (be16 buf (off + 4)).toUInt32, buf.getD (off + 9) 0, false⟩
          at_ := at_
          more := more
          head := if at_ = 0 then some ⟨buf.take (off + ihl), off, false⟩ else none
          data_at := off + ihl
          data_end := end_ }

/-- The IPv6 arm of `inspect`. -/
def inspect_v6 (buf : Bytes) (off : ℕ) : Option Found :=
  match v6_end buf off with
  | none => none
  | some end_ =>
    match v6_frag_header buf off end_ with
    | none => none
    | some (fh, nh_at) =>
      let word := be16 buf (fh + 2)
      let at_ := (word >>> 3).toNat * 8
      some
        { key := ⟨wide (slice buf (off + 8) (off + 24)), wide (slice buf (off + 24) (off + 40)),
            be32 buf (fh + 4), 0, true⟩
          at_ := at_
          more := word &&& 1 ≠ 0
          head := if at_ = 0 then
              some ⟨put (buf.take fh) nh_at [buf.getD fh 0], off, true⟩
            else none
          data_at := fh + 8
          data_end := end_ }

/-- `inspect`: `none` when the frame carries no fragment at all. -/
def inspect (L : Layers) (buf : Bytes) (link : ProtoId) : Option Found :=
  match ip_layer L buf link with
  | some (.Ipv4, off) => inspect_v4 buf off
  | some (.Ipv6, off) => inspect_v6 buf off
  | _ => none

/-- The payload `push` slices out of a frame lies in it. -/
theorem inspect_bounds {L : Layers} {buf : Bytes} {link : ProtoId} {f : Found}
    (h : inspect L buf link = some f) : f.data_at ≤ f.data_end ∧ f.data_end ≤ buf.length := by
  -- Through the IPv4 or the IPv6 branch; the bounds are those of the extent that was found.
  unfold inspect at h
  split at h
  · rename_i off _
    unfold inspect_v4 at h
    cases hext : v4_extent buf off with
    | none => simp [hext] at h
    | some e =>
      obtain ⟨-, hle, hend⟩ := v4_extent_bounds hext
      rw [hext] at h
      dsimp only at h
      split at h
      · exact absurd h nofun
      · obtain rfl := Option.some.inj h
        exact ⟨hle, hend⟩
  · rename_i off _
    unfold inspect_v6 at h
    cases hend : v6_end buf off with
    | none => simp [hend] at h
    | some end_ =>
      rw [hend] at h
      dsimp only at h
      cases hfh : v6_frag_header buf off end_ with
      | none => simp [hfh] at h
      | some e =>
        rw [hfh] at h
        obtain rfl := Option.some.inj h
        exact ⟨v6_frag_header_bounds hfh, (v6_end_bounds hend).2⟩
  · exact absurd h nofun

/-- The payload octets of a fragment. -/
def Found.data (f : Found) (buf : Bytes) : Bytes := slice buf f.data_at f.data_end

/-- An offset past the 16-bit Total Length cannot belong to any datagram reassembled here. -/
def Found.Teardrop (f : Found) : Prop :=
  f.at_ ≥ MAX_DATAGRAM ∨ f.data_end - f.data_at > MAX_DATAGRAM - f.at_

instance (f : Found) : Decidable f.Teardrop := inferInstanceAs (Decidable (_ ∨ _))

/-- What `push` does to the group of a fragment: its position, its head where the group has none,
its octets, and the total where it is the last fragment and none was given. -/
def Group.take (g : Group) (pos : ℕ) (f : Found) (data : Bytes) : Group :=
  let g := { g with at_ := g.at_ ++ [pos], head := g.head.or f.head }
  let g := g.absorb f.at_ data
  { g with
    total := if f.more = false ∧ g.total.isNone then some (f.at_ + (f.data_end - f.data_at))
      else g.total }

/-! ## The reassembler -/

/-- `Reassembler`. -/
structure Reassembler where
  groups : AList fun _ : Key => Group := ∅
  /-- One entry per group, stamped so an entry left behind by a group that finished cannot evict
  the live group that later reclaimed its key. -/
  order : List (ℕ × Key) := []
  seq : ℕ := 0
  buffered : ℕ := 0
  out : List Piece := []

/-- The pieces `spill` adds for a group. -/
def spill (g : Group) : List Piece := g.at_.map .Incomplete

/-- What a group that is complete turns into. -/
def closed (g : Group) : List Piece :=
  match g.assemble with
  | some frame => [.Complete (g.at_.headD 0) frame]
  | none => spill g

namespace Reassembler

/-- The state and the group a fragment of `key` is fed to: the group is opened where none is. -/
def entry (r : Reassembler) (key : Key) : Reassembler × Group :=
  match r.groups.lookup key with
  | some g => (r, g)
  | none =>
    let g : Group := { seq := r.seq }
    ({ r with
      order := r.order ++ [(r.seq, key)]
      seq := r.seq + 1
      groups := r.groups.insert key g }, g)

/-- `push` of a fragment that is taken into `g`, up to its call of `evict`. -/
def fed (r : Reassembler) (key : Key) (g g' : Group) : Reassembler :=
  let r := { r with
    groups := r.groups.insert key g'
    buffered := r.buffered + (g'.data.length - g.data.length) }
  if g'.complete then
    { r with
      groups := r.groups.erase key
      buffered := r.buffered - g'.data.length
      out := r.out ++ closed g' }
  else r

/-- The condition of the loop in `evict`. -/
def crowded (r : Reassembler) : Prop :=
  r.groups.keys.length > MAX_INFLIGHT ∨ r.buffered > MAX_BUFFERED

instance (r : Reassembler) : Decidable r.crowded := inferInstanceAs (Decidable (_ ∨ _))

/-- One turn of the loop in `evict`: the front of `order` leaves, and the group it names with it
where the stamp is that group's own. -/
def evict_turn (r : Reassembler) (stamp : ℕ) (key : Key) (rest : List (ℕ × Key)) : Reassembler :=
  match r.groups.lookup key with
  | some g =>
    if g.seq = stamp then
      { r with
        order := rest
        groups := r.groups.erase key
        buffered := r.buffered - g.data.length
        out := r.out ++ spill g }
    else { r with order := rest }
  | none => { r with order := rest }

/-- The loop in `evict`, along the queue. -/
def evict_loop (r : Reassembler) : List (ℕ × Key) → Reassembler
  | [] => r
  | (stamp, key) :: rest =>
    if r.crowded then (r.evict_turn stamp key rest).evict_loop rest else r

/-- The sweep at the end of `evict`: entries no live group answers to. -/
def sweep (r : Reassembler) : Reassembler :=
  if r.order.length > 4 * MAX_INFLIGHT then
    { r with order := r.order.filter (Recency.current Group.seq r.groups) }
  else r

/-- `Reassembler::evict`. -/
def evict (r : Reassembler) : Reassembler := (r.evict_loop r.order).sweep

/-- `push` of a frame that carries the fragment `f` with the octets `data`. -/
def push_fragment (r : Reassembler) (pos : ℕ) (f : Found) (data : Bytes) : Reassembler :=
  if f.Teardrop then { r with out := r.out ++ [.Incomplete pos] }
  else
    let (r, g) := r.entry f.key
    if g.at_.length ≥ MAX_FRAGS then { r with out := r.out ++ [.Incomplete pos] }
    else (r.fed f.key g (g.take pos f data)).evict

/-- `Reassembler::push`. -/
def push (L : Layers) (link : ProtoId) (r : Reassembler) (pos : ℕ) (buf : Bytes) : Reassembler :=
  match inspect L buf link with
  | none => { r with out := r.out ++ [.Whole pos] }
  | some f => r.push_fragment pos f (f.data buf)

/-- One turn of the loop in `finish`. -/
def finish_turn (r : Reassembler) (out : List Piece) (key : Key) : List Piece :=
  match r.groups.lookup key with
  | some g => out ++ spill g
  | none => out

/-- The order `sort_by_key(|p| p.at())` sorts by. -/
def by_at (p q : Piece) : Prop := p.at_ ≤ q.at_

instance : DecidableRel by_at := fun p q => inferInstanceAs (Decidable (p.at_ ≤ q.at_))

/-- `Reassembler::finish`, the hash map draining in the order of `keys`; `sort_by_key` is stable,
as insertion sort is. -/
def finish (r : Reassembler) (keys : List Key) : List Piece :=
  (keys.foldl r.finish_turn r.out).insertionSort by_at

end Reassembler

/-! ## Runs -/

/-- The position of the `i`-th frame: `u32::try_from(i).unwrap_or(u32::MAX)`. -/
def position (i : ℕ) : ℕ := min i (2 ^ 32 - 1)

/-- The frames with their positions. -/
def numbered (frames : List Bytes) : List (ℕ × Bytes) :=
  frames.zipIdx.map fun f => (position f.2, f.1)

/-- The state after pushing a sequence of numbered frames. -/
def pushes (L : Layers) (link : ProtoId) (ps : List (ℕ × Bytes)) : Reassembler :=
  ps.foldl (fun r p => r.push L link p.1 p.2) {}

/-- `defragment`, the hash map draining in the order of `keys`. -/
def defragment (L : Layers) (frames : List Bytes) (link : ProtoId) (keys : List Key) :
    List Piece := (pushes L link (numbered frames)).finish keys

end Wiry.Frag
