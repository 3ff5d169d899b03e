/-
`Build` of `crates/wiry-core/src/stream.rs`: the state one direction is
reassembled in, and `feed` and `finish` with the functions they call.

Every definition carries the name of the Rust function it is, and says one loop
or one branch of it at a time. What differs is only this. Sequence positions are
`u64` in the source and natural numbers here: the frontier starts below `2 ^ 33`
and a segment moves it by less than `2 ^ 32`, so the saturating additions of the
source saturate only after `2 ^ 31` segments. `while` loops are recursions on the
measure that makes them end. The `work` counter, which exists for one test, is
left out.
-/
import Wiry.Lib.Runs
import Wiry.Stream.Half
import Mathlib.Data.List.Induction

set_option autoImplicit false

namespace Wiry.Stream

/-- A run of octets waiting behind a gap, from one packet. -/
structure Held (α : Type) where
  bytes : List α := []
  pkt : ℕ := 0
deriving DecidableEq, Repr

/-- The octets a held run stands for, each with its packet. -/
def Held.cells {α : Type} (h : Held α) : List (α × ℕ) := h.bytes.map fun o => (o, h.pkt)

@[simp] theorem Held.length_cells {α : Type} (h : Held α) : h.cells.length = h.bytes.length := by
  simp [Held.cells]

/-- The state of one direction under reassembly. -/
@[ext] structure Build (α : Type) where
  half : Half α := {}
  held : SortedMap ℕ (Held α) := SortedMap.empty
  held_bytes : ℕ := 0
  /-- Sequence of the next octet to deliver; before `open_`, the first sequence seen. -/
  next : ℕ := 0
  /-- The lowest offset this direction can deliver. -/
  origin : ℕ := 0
  started : Bool := false
  open_ : Bool := false

/-- One segment as it is fed: its sequence number, control bits, payload and packet. -/
structure Arrival (α : Type) where
  seq : UInt32
  flags : UInt8
  data : List α
  pkt : ℕ

namespace Build

variable {α : Type}

/-! ## Delivering octets -/

/-- The `match` of `append`: octets of the packet that delivered last extend its segment. -/
def push_seg (segs : List Seg) (len n pkt : ℕ) : List Seg :=
  match segs.getLast? with
  | some s =>
    if s.pkt = pkt ∧ s.at_ + s.len = len then segs.dropLast ++ [{ s with len := s.len + n }]
    else segs ++ [⟨len, n, pkt⟩]
  | none => segs ++ [⟨len, n, pkt⟩]

/-- `Build::append`: delivers `data` at the frontier, as much of it as `MAX_STREAM` has room for. -/
def append (b : Build α) (data : List α) (pkt : ℕ) : Build α :=
  let room := MAX_STREAM - b.half.data.length
  if room = 0 then
    { b with
      half := { b.half with
        flags := b.half.flags ||| TRUNCATED
        dropped := b.half.dropped + data.length }
      next := b.next + data.length }
  else
    let n := min data.length room
    let half :=
      if n < data.length then
        { b.half with
          flags := b.half.flags ||| TRUNCATED
          dropped := b.half.dropped + (data.length - n) }
      else b.half
    { b with
      half := { half with
        segs := push_seg half.segs half.data.length n pkt
        data := half.data ++ data.take n }
      next := b.next + data.length }

/-- `held.remove` with its count. -/
def pop (b : Build α) (ks : ℕ) (h : Held α) : Build α :=
  { b with
    held := b.held.remove ks
    held_bytes := b.held_bytes - h.bytes.length }

@[simp] theorem pop_half (b : Build α) (ks : ℕ) (h : Held α) : (b.pop ks h).half = b.half := rfl
@[simp] theorem pop_held (b : Build α) (ks : ℕ) (h : Held α) :
    (b.pop ks h).held = b.held.remove ks := rfl
@[simp] theorem pop_next (b : Build α) (ks : ℕ) (h : Held α) : (b.pop ks h).next = b.next := rfl
@[simp] theorem pop_origin (b : Build α) (ks : ℕ) (h : Held α) :
    (b.pop ks h).origin = b.origin := rfl
@[simp] theorem pop_open (b : Build α) (ks : ℕ) (h : Held α) : (b.pop ks h).open_ = b.open_ := rfl
@[simp] theorem pop_started (b : Build α) (ks : ℕ) (h : Held α) :
    (b.pop ks h).started = b.started := rfl

/-- One turn of the loop in `drain`: the first held run leaves, and what of it lies past the
frontier is delivered. -/
def take_front (b : Build α) (ks : ℕ) (h : Held α) : Build α :=
  let ke := ks + h.bytes.length
  if ke ≤ b.next then b.pop ks h else (b.pop ks h).append (h.bytes.drop (b.next - ks)) h.pkt

@[simp] theorem held_append (b : Build α) (data : List α) (pkt : ℕ) :
    (b.append data pkt).held = b.held := by
  unfold append
  dsimp only
  split <;> rfl

theorem held_take_front (b : Build α) (ks : ℕ) (h : Held α) :
    (b.take_front ks h).held = b.held.remove ks := by
  unfold take_front
  dsimp only
  split <;> simp

theorem length_take_front {b : Build α} {ks : ℕ} {h : Held α} (hf : b.held.first = some (ks, h)) :
    (b.take_front ks h).held.length < b.held.length := by
  have hlen : (b.held.remove ks).length + 1 = b.held.length := SortedMap.length_remove_first hf
  rw [held_take_front]
  omega

/-- `Build::drain`: delivers the held runs the frontier has reached. -/
def drain (b : Build α) : Build α :=
  match _hf : b.held.first with
  | some (ks, h) => if b.next < ks then b else (b.take_front ks h).drain
  | none => b
termination_by b.held.length
decreasing_by exact length_take_front ‹_›

/-- The induction rule of `drain`: what holds of a state whose first held run is past the
frontier, and passes back over one turn of the loop, holds of every state. -/
theorem drain_induction {P : Build α → Build α → Prop}
    (stay : ∀ b : Build α, (∀ ks h, b.held.first = some (ks, h) → b.next < ks) → P b b)
    (step : ∀ (b : Build α) (ks : ℕ) (h : Held α), b.held.first = some (ks, h) → ks ≤ b.next →
      P (b.take_front ks h) (b.take_front ks h).drain → P b (b.take_front ks h).drain)
    (b : Build α) : P b b.drain := by
  rw [drain]
  split
  · rename_i ks h hf
    split
    · rename_i hlt
      refine stay b fun ks' h' hf' => ?_
      rw [hf] at hf'
      obtain ⟨rfl, rfl⟩ : ks = ks' ∧ h = h' := by simpa using hf'
      exact hlt
    · rename_i hge
      exact step b ks h hf (Nat.not_lt.1 hge) (drain_induction stay step (b.take_front ks h))
  · rename_i hf
    exact stay b fun ks h hf' => by rw [hf] at hf'; cases hf'
termination_by b.held.length
decreasing_by exact length_take_front ‹_›

/-- Draining holds no more. -/
theorem length_drain_le (b : Build α) : b.drain.held.length ≤ b.held.length := by
  refine drain_induction (P := fun b b' => b'.held.length ≤ b.held.length) ?_ ?_ b
  · intro b _
    exact le_rfl
  · intro b ks h hf _ ih
    have := length_take_front hf
    omega

/-- A drain whose first run the frontier has reached takes at least that run. -/
theorem length_drain_lt {b : Build α} {ks : ℕ} {h : Held α} (hf : b.held.first = some (ks, h))
    (hks : ks ≤ b.next) : b.drain.held.length < b.held.length := by
  rw [drain]
  split
  · rename_i ks' h' hf'
    rw [hf] at hf'
    obtain ⟨rfl, rfl⟩ : ks = ks' ∧ h = h' := by simpa using hf'
    rw [if_neg (by omega)]
    have h1 := length_take_front hf
    have h2 := length_drain_le (b.take_front ks h)
    omega
  · rename_i hf'
    rw [hf] at hf'
    cases hf'

/-! ## Giving up on what is missing -/

/-- The gap in front of what is held is recorded, and the frontier moves over it. -/
def skip_to (b : Build α) (first : ℕ) : Build α :=
  if b.next < first then
    { b with
      half := { b.half with
        gaps := b.half.gaps ++ [⟨b.half.data.length, first - b.next⟩] }
      next := first }
  else b

/-- `Build::give_up_on_front`: `none` when nothing is held. -/
def give_up_on_front (b : Build α) : Option (Build α) :=
  match b.held.first with
  | none => none
  | some (first, _) => some (b.skip_to first).drain

@[simp] theorem held_skip_to (b : Build α) (first : ℕ) : (b.skip_to first).held = b.held := by
  unfold skip_to
  split <;> rfl

theorem le_next_skip_to (b : Build α) (first : ℕ) : first ≤ (b.skip_to first).next := by
  unfold skip_to
  split
  · exact le_rfl
  · omega

theorem length_give_up_lt {b b' : Build α} (h : b.give_up_on_front = some b') :
    b'.held.length < b.held.length := by
  unfold give_up_on_front at h
  split at h
  · cases h
  · rename_i first hd hf
    obtain rfl := Option.some.inj h
    have hf' : (b.skip_to first).held.first = some (first, hd) := by rw [held_skip_to, hf]
    have := length_drain_lt hf' (le_next_skip_to b first)
    rwa [held_skip_to] at this

/-- The condition of the loop in `relieve`: a holding bound is passed. -/
def overfull (b : Build α) : Prop := b.held.length > MAX_HELD_SEGS ∨ b.held_bytes > MAX_HELD_BYTES

instance (b : Build α) : Decidable b.overfull := inferInstanceAs (Decidable (_ ∨ _))

/-- `Build::relieve`. -/
def relieve (b : Build α) : Build α :=
  if b.overfull then
    match _hg : b.give_up_on_front with
    | some b' => b'.relieve
    | none => b
  else b
termination_by b.held.length
decreasing_by exact length_give_up_lt ‹_›

/-- The loop of `finish`: every run still held is delivered behind the gap in front of it. -/
def flush (b : Build α) : Build α :=
  match _hg : b.give_up_on_front with
  | some b' => b'.flush
  | none => b
termination_by b.held.length
decreasing_by exact length_give_up_lt ‹_›

theorem relieve_of_some {b b' : Build α} (ho : b.overfull) (hg : b.give_up_on_front = some b') :
    b.relieve = b'.relieve := by
  rw [relieve, if_pos ho]
  split
  · rename_i b'' hg'
    rw [hg] at hg'
    rw [Option.some.inj hg']
  · rename_i hg'
    rw [hg] at hg'
    cases hg'

theorem relieve_of_none {b : Build α} (hg : b.give_up_on_front = none) : b.relieve = b := by
  rw [relieve]
  split
  · split
    · rename_i b' hg'
      rw [hg] at hg'
      cases hg'
    · rfl
  · rfl

theorem relieve_of_not {b : Build α} (ho : ¬ b.overfull) : b.relieve = b := by
  rw [relieve, if_neg ho]

theorem flush_of_some {b b' : Build α} (hg : b.give_up_on_front = some b') :
    b.flush = b'.flush := by
  rw [flush]
  split
  · rename_i b'' hg'
    rw [hg] at hg'
    rw [Option.some.inj hg']
  · rename_i hg'
    rw [hg] at hg'
    cases hg'

/-- And nothing to flush. -/
theorem flush_of_none {b : Build α} (hg : b.give_up_on_front = none) : b.flush = b := by
  rw [flush]
  split
  · rename_i b' hg'
    rw [hg] at hg'
    cases hg'
  · rfl

/-! ## Holding octets -/

/-- `held.insert` with its count. -/
def insert_held (b : Build α) (k : ℕ) (bytes : List α) (pkt : ℕ) : Build α :=
  { b with
    held_bytes := b.held_bytes + bytes.length
    held := b.held.insert k ⟨bytes, pkt⟩ }

/-- The next held run at or past `cur` that starts before `end_`, as its two ends; `end_` twice
when there is none. -/
def hold_stop (b : Build α) (cur end_ : ℕ) : ℕ × ℕ :=
  match b.held.ceil cur with
  | some (ks, h) => if ks < end_ then (ks, ks + h.bytes.length) else (end_, end_)
  | none => (end_, end_)

/-- One turn of the `while` of `hold`: the stretch from `cur` to the next held run is kept. -/
def hold_turn (b : Build α) (at_ : ℕ) (src : List α) (pkt cur : ℕ) : Build α :=
  let stop := b.hold_stop cur (at_ + src.length)
  if stop.1 > cur then
    b.insert_held cur ((src.drop (cur - at_)).take (stop.1 - cur)) pkt
  else b

/-- The `while` of `hold`: from `cur` on, each stretch of `[at_, at_ + src.len)` that no held run
claims is kept as its own run. -/
def hold_from (b : Build α) (at_ : ℕ) (src : List α) (pkt cur : ℕ) : Build α :=
  let end_ := at_ + src.length
  if cur < end_ then
    (b.hold_turn at_ src pkt cur).hold_from at_ src pkt (max (b.hold_stop cur end_).2 (cur + 1))
  else b
termination_by at_ + src.length - cur

theorem hold_from_of_lt (b : Build α) {at_ : ℕ} {src : List α} (pkt : ℕ) {cur : ℕ}
    (h : cur < at_ + src.length) :
    b.hold_from at_ src pkt cur = (b.hold_turn at_ src pkt cur).hold_from at_ src pkt
      (max (b.hold_stop cur (at_ + src.length)).2 (cur + 1)) := by
  rw [hold_from]
  exact if_pos h

theorem hold_from_of_le (b : Build α) {at_ : ℕ} {src : List α} (pkt : ℕ) {cur : ℕ}
    (h : at_ + src.length ≤ cur) : b.hold_from at_ src pkt cur = b := by
  rw [hold_from]
  exact if_neg (by omega)

/-- `Build::hold`: keeps only the parts of `[at_, at_ + src.len)` no held segment claims. -/
def hold (b : Build α) (at_ : ℕ) (src : List α) (pkt : ℕ) : Build α :=
  match b.held.floor at_ with
  | some (ps, h) =>
    let pe := ps + h.bytes.length
    if at_ + src.length ≤ pe then b else b.hold_from at_ src pkt (max at_ pe)
  | none => b.hold_from at_ src pkt at_

/-- `Build::fix_origin`: the earliest sequence held becomes offset zero. -/
def fix_origin (b : Build α) : Build α :=
  match b.held.first with
  | none => b
  | some (first, _) => { b with next := first, origin := first, open_ := true }

/-! ## Feeding a segment -/

/-- The first segment fed anchors the line, one wrap in. -/
def anchor (b : Build α) (seq : UInt32) : Build α :=
  if b.started then b
  else { b with next := seq.toNat + 2 ^ 32, origin := seq.toNat + 2 ^ 32, started := true }

/-- How far `seq` lies from the frontier, as the signed 32-bit difference. -/
def distance (b : Build α) (seq : UInt32) : ℤ := (seq - UInt32.ofNat b.next).toInt32.toInt

/-- `Build::absolute`: the position on the 64-bit line a wire sequence number names. -/
def absolute (b : Build α) (seq : UInt32) : ℕ := ((b.next : ℤ) + b.distance seq).toNat

/-- `half.flags |= m`. -/
def mark (b : Build α) (m : UInt8) : Build α :=
  { b with half := { b.half with flags := b.half.flags ||| m } }

/-- The SYN arm: before the direction is open, its sequence number fixes the origin. -/
def see_syn (b : Build α) (at_ : ℕ) : Build α :=
  if b.open_ then b.mark SAW_SYN
  else { b.mark SAW_SYN with origin := at_, next := at_ + 1, open_ := true }

/-- The control bits: what SYN, FIN and RST change. -/
def see_control (b : Build α) (at_ : ℕ) (flags : UInt8) : Build α :=
  let b := if flags &&& SYN ≠ 0 then b.see_syn at_ else b
  let b := if flags &&& FIN ≠ 0 then b.mark SAW_FIN else b
  if flags &&& RST ≠ 0 then b.mark SAW_RST else b

/-- `half.flags |= LOSSY; half.dropped += n`. -/
def refuse (b : Build α) (n : ℕ) : Build α :=
  { b with half := { b.half with
      flags := b.half.flags ||| LOSSY
      dropped := b.half.dropped + n } }

/-- `u64::abs_diff`. -/
def abs_diff (a b : ℕ) : ℕ := (a - b) + (b - a)

/-- The payload arm of a direction that is not open: the segment waits for the origin. -/
def feed_window (b : Build α) (at_ : ℕ) (data : List α) (pkt : ℕ) : Build α :=
  if abs_diff at_ b.next > MAX_AHEAD then b.refuse data.length
  else
    let b := b.hold at_ data pkt
    if b.held.length ≥ ORIGIN_WINDOW then b.fix_origin.drain else b

/-- What is left of a segment once what the frontier has passed is cut off it. -/
def feed_ahead (b : Build α) (at_ : ℕ) (data : List α) (pkt : ℕ) : Build α :=
  if at_ > b.next then
    if at_ - b.next > MAX_AHEAD then b.refuse data.length
    else (b.hold at_ data pkt).relieve
  else (b.append data pkt).drain

/-- The payload arm of an open direction. -/
def feed_open (b : Build α) (at_ : ℕ) (data : List α) (pkt : ℕ) : Build α :=
  let b := if at_ < b.origin then b.refuse (min (b.origin - at_) data.length) else b
  if at_ + data.length ≤ b.next then b
  else if at_ < b.next then
    b.feed_ahead b.next (data.drop (min (b.next - at_) data.length)) pkt
  else b.feed_ahead at_ data pkt

/-- Where the payload of a segment starts: a SYN takes one sequence number. -/
def payload_at (at_ : ℕ) (flags : UInt8) : ℕ := if flags &&& SYN ≠ 0 then at_ + 1 else at_

/-- `Build::feed`. -/
def feed (b : Build α) (seq : UInt32) (flags : UInt8) (data : List α) (pkt : ℕ) : Build α :=
  let b := b.anchor seq
  let at_ := b.absolute seq
  let b := b.see_control at_ flags
  let at_ := payload_at at_ flags
  if data.isEmpty then b
  else if b.open_ then b.feed_open at_ data pkt
  else b.feed_window at_ data pkt

/-- The state in which `finish` hands its half back. -/
def finished (b : Build α) : Build α := (if b.open_ then b else b.fix_origin).flush

/-- `Build::finish`: delivers everything still held, each run behind the gap in front of it. -/
def finish (b : Build α) : Half α := b.finished.half

/-! ## Whole runs -/

/-- `feed` of one arrival. -/
def take (b : Build α) (f : Arrival α) : Build α := b.feed f.seq f.flags f.data f.pkt

/-- The state after a sequence of arrivals. -/
def run (fs : List (Arrival α)) : Build α := fs.foldl take {}

/-- The half a sequence of arrivals is handed back as. -/
def reassembled (fs : List (Arrival α)) : Half α := (run fs).finish

@[simp] theorem run_nil : run ([] : List (Arrival α)) = {} := rfl

theorem run_append_singleton (fs : List (Arrival α)) (f : Arrival α) :
    run (fs ++ [f]) = (run fs).take f := by
  simp [run]

/-- What holds at the start and is kept by each arrival holds after every run. -/
theorem run_induction {P : List (Arrival α) → Build α → Prop} (start : P [] {})
    (step : ∀ fs f, P fs (run fs) → P (fs ++ [f]) ((run fs).take f)) (fs : List (Arrival α)) :
    P fs (run fs) := by
  induction fs using List.reverseRecOn with
  | nil => exact start
  | append_singleton fs f ih =>
    rw [run_append_singleton]
    exact step fs f ih

end Build

end Wiry.Stream
