/-
`crates/wiry-py/src/live.rs` (`Exchange`, `pair_replies`, `sr_live`) and the capture of
`crates/wiry-capture/src/sink.rs` that the replies are kept in.

What a clock decides, when a wait is over, is left open: a round of `sr_live` may end wherever the
source's deadline could have passed.
-/
import Wiry.Answers.Attribution
import Wiry.Capture.Pcap
import Wiry.Lib.Pairing

set_option autoImplicit false

namespace Wiry.Answers

open Packet (Bytes LayerSpan ProtoId Layers slice slice_checked slice_checked_eq dissect_spans)

/-! ## The capture -/

structure PacketMeta where
  ts_sec : UInt32
  ts_frac : UInt32
  caplen : UInt32
  origlen : UInt32

/-- Where a record's octets stand in the capture's image. -/
structure Entry where
  off : ℕ
  caplen : UInt32
  ts_sec : UInt32
  ts_frac : UInt32
  origlen : UInt32

structure CaptureBuf where
  buf : Bytes
  index : List Entry
  linktype : UInt32

def CaptureBuf.new (linktype snaplen : UInt32) : CaptureBuf :=
  ⟨Capture.Pcap.write_header linktype snaplen false, [], linktype⟩

def CaptureBuf.push (c : CaptureBuf) (m : PacketMeta) (data : Bytes) : CaptureBuf :=
  { c with
    buf := c.buf ++ Capture.Pcap.write_record m.ts_sec m.ts_frac data m.origlen
    -- past the sixteen octets of the record's header
    index := c.index ++ [⟨c.buf.length + 16, UInt32.ofNat data.length, m.ts_sec, m.ts_frac, m.origlen⟩] }

def CaptureBuf.len (c : CaptureBuf) : ℕ := c.index.length

@[simp] theorem CaptureBuf.len_push (c : CaptureBuf) (m : PacketMeta) (data : Bytes) :
    (c.push m data).len = c.len + 1 := by
  simp [len, push]

/-- The octets a reader takes at an entry. -/
def CaptureBuf.frame (c : CaptureBuf) (at_ : ℕ) : Option Bytes :=
  c.index[at_]?.bind fun e => slice_checked c.buf e.off (e.off + e.caplen.toNat)

/-- A capture as it stands after records of these octets. -/
def CaptureBuf.Holds (c : CaptureBuf) (frames : List Bytes) : Prop :=
  c.len = frames.length ∧ ∀ at_, c.frame at_ = frames[at_]?

theorem CaptureBuf.holds_new (linktype snaplen : UInt32) : (new linktype snaplen).Holds [] :=
  ⟨rfl, fun at_ => by simp [frame, new]⟩

theorem slice_checked_longer {b x : Bytes} {i j : ℕ} (more : Bytes) (h : slice_checked b i j = some x) :
    slice_checked (b ++ more) i j = some x := by
  have hin : i ≤ j ∧ j ≤ b.length := by
    by_contra hout
    rw [slice_checked, if_neg hout] at h
    cases h
  have hwithin := Capture.slice_checked_within [] more hin.1 hin.2
  simpa [h] using hwithin

/-- A record stands behind those that are there and moves none of them. -/
theorem CaptureBuf.Holds.push {c : CaptureBuf} {frames : List Bytes} (h : c.Holds frames) (m : PacketMeta)
    {data : Bytes} (hdata : data.length < 2 ^ 32) : (c.push m data).Holds (frames ++ [data]) := by
  obtain ⟨hlen, hframe⟩ := h
  refine ⟨by simp [hlen], fun at_ => ?_⟩
  -- Behind the frames pushed before, at the new one, or past the end.
  rcases Nat.lt_trichotomy at_ c.len with hold | rfl | hbehind
  · have hsome := hframe at_
    rw [List.getElem?_eq_getElem (hlen ▸ hold)] at hsome
    rw [List.getElem?_append_left (hlen ▸ hold), List.getElem?_eq_getElem (hlen ▸ hold)]
    obtain ⟨e, he, hslice⟩ := Option.bind_eq_some_iff.1 hsome
    simp only [frame, CaptureBuf.push]
    rw [List.getElem?_append_left (by exact hold), he]
    exact slice_checked_longer _ hslice
  · rw [hlen, List.getElem?_concat_length, ← hlen]
    simp only [frame, CaptureBuf.push, len]
    rw [List.getElem?_concat_length]
    have htake : data.take (min data.length (2 ^ 32 - 1)) = data :=
      Capture.Pcap.take_whole (by omega)
    have hcap : (UInt32.ofNat data.length).toNat = data.length := UInt32.toNat_ofNat_of_lt hdata
    simp only [Option.bind_some, Capture.Pcap.write_record, htake, hcap]
    -- the record just written ends the buffer: its header, then the frame
    rw [← List.append_assoc, ← List.append_nil (_ ++ data)]
    apply Capture.slice_checked_middle
    · simp [Capture.le32]
    · simp [Capture.le32]
  · rw [List.getElem?_eq_none (by rw [List.length_append, List.length_singleton]; omega), frame,
      List.getElem?_eq_none]
    · rfl
    · exact (len_push c m data).trans_le hbehind

/-! ## One exchange -/

structure Exchange where
  keys : List (Option ReplyKey)
  got : List Bool
  pairs : List (ℕ × ℕ)
  out : CaptureBuf
  scratch : Bytes
  link : ProtoId
  multi : Bool
  check_addr : Bool
  sized : got.length = keys.length

namespace Exchange

def settled (ex : Exchange) : Bool := !ex.multi && ex.got.all id

def pending (ex : Exchange) : List ℕ := (List.range ex.got.length).filter fun i => !ex.got.getD i false

/-- The loop of `offer` over the sent packets; `kept` is where the frame was stored, once it was. -/
def offer_to (L : Layers) (m : PacketMeta) (f : Frame) : List ℕ → Option ℕ → Exchange → Exchange
  | [], _, ex => ex
  | i :: rest, kept, ex =>
    match ex.keys.getD i none with
    | none => offer_to L m f rest kept ex
    | some k =>
      if !ex.multi && ex.got.getD i false then offer_to L m f rest kept ex
      else if !answers_matching L k f ex.check_addr then offer_to L m f rest kept ex
      else
        let out := if kept.isSome then ex.out else ex.out.push m f.buf
        let at_ := kept.getD (out.len - 1)
        let ex := { ex with
          out, pairs := ex.pairs ++ [(i, at_)], got := ex.got.set i true
          sized := by rw [List.length_set, ex.sized] }
        if !ex.multi then ex else offer_to L m f rest (some at_) ex

/-- Records every sent packet the frame in `scratch` answers. -/
def offer (L : Layers) (ex : Exchange) (m : PacketMeta) : Exchange :=
  offer_to L m ⟨ex.scratch, dissect_spans L ex.scratch ex.link⟩ (List.range ex.keys.length) none ex

/-- `next_into` and `offer`. -/
def take (L : Layers) (ex : Exchange) (m : PacketMeta) (frame : Bytes) : Exchange :=
  offer L { ex with scratch := frame } m

end Exchange

/-- The exchange before anything was received. -/
def Exchange.new (L : Layers) (sent : List Bytes) (sent_link link : ProtoId) (multi check_addr : Bool)
    (out : CaptureBuf) : Exchange where
  keys := sent.map fun f => reply_key ⟨f, dissect_spans L f sent_link⟩
  got := List.replicate sent.length false
  pairs := []
  out := out
  scratch := []
  link := link
  multi := multi
  check_addr := check_addr
  sized := by simp

/-- The frames of `pair_replies` from the `at_`th on. -/
def replies (L : Layers) : List Bytes → ℕ → List (ℕ × ℕ) → Exchange → List (ℕ × ℕ) × Exchange
  | [], _, pairs, ex => (pairs, ex)
  | frame :: rest, at_, pairs, ex =>
    let m := ⟨0, 0, UInt32.ofNat frame.length, UInt32.ofNat frame.length⟩
    let before := ex.pairs.length
    let ex := ex.take L m frame
    replies L rest (at_ + 1) (pairs ++ (ex.pairs.drop before).map fun x => (x.1, at_)) ex

/-- The link type of a capture of bare IPv4 packets. -/
def LINKTYPE_IPV4 : UInt32 := 228

def pair_replies (L : Layers) (sent received : List Bytes) (link : ProtoId) (multi check_addr : Bool) :
    List (ℕ × ℕ) × List ℕ :=
  let ex := Exchange.new L sent link link multi check_addr (.new LINKTYPE_IPV4 262144)
  let (pairs, ex) := replies L received 0 [] ex
  (pairs, ex.pending)

/-! ## What one frame does -/

namespace Exchange

variable (L : Layers)

/-- The frame answers the packet sent at `i`. -/
def matches_at (ex : Exchange) (i : ℕ) (frame : Bytes) : Bool :=
  match ex.keys.getD i none with
  | none => false
  | some k => answers_matching L k ⟨frame, dissect_spans L frame ex.link⟩ ex.check_addr

section

variable {L}

theorem matches_at_none {ex : Exchange} {i : ℕ} (h : ex.keys.getD i none = none) (frame : Bytes) :
    ex.matches_at L i frame = false := by
  rw [matches_at, h]

theorem matches_at_some {ex : Exchange} {i : ℕ} {k : ReplyKey} (h : ex.keys.getD i none = some k)
    (frame : Bytes) : ex.matches_at L i frame =
      answers_matching L k ⟨frame, dissect_spans L frame ex.link⟩ ex.check_addr := by
  rw [matches_at, h]

end

/-- Marks the packets of `hits` as answered. -/
def mark (got : List Bool) (hits : List ℕ) : List Bool := hits.foldl (fun got i => got.set i true) got

@[simp] theorem length_mark (got : List Bool) (hits : List ℕ) : (mark got hits).length = got.length := by
  induction hits generalizing got with
  | nil => rfl
  | cons i hits ih => simpa [mark] using ih (got.set i true)

theorem getD_mark (got : List Bool) (hits : List ℕ) {i : ℕ} (hi : i < got.length) :
    (mark got hits).getD i false = (decide (i ∈ hits) || got.getD i false) := by
  induction hits generalizing got with
  | nil => simp [mark]
  | cons j hits ih =>
    have hstep : mark got (j :: hits) = mark (got.set j true) hits := rfl
    rw [hstep, ih _ (by simpa using hi)]
    by_cases hij : j = i
    · simp [hij, hi]
    · simp [List.getD_eq_getElem?_getD, List.getElem?_set_ne hij, Ne.symm hij]

/-- The exchange once a frame is kept for the packets of `hits`. -/
def record (ex : Exchange) (m : PacketMeta) (frame : Bytes) (hits : List ℕ) : Exchange :=
  { ex with
    out := if hits = [] then ex.out else ex.out.push m frame
    pairs := ex.pairs ++ hits.map (·, ex.out.len)
    got := mark ex.got hits
    sized := by rw [length_mark, ex.sized] }

@[simp] theorem record_nil (ex : Exchange) (m : PacketMeta) (frame : Bytes) : ex.record m frame [] = ex := by
  simp [record, mark]

/-- Who a frame is an answer for. -/
def hits (ex : Exchange) (frame : Bytes) : List ℕ :=
  if ex.multi then (List.range ex.keys.length).filter (ex.matches_at L · frame)
  else (ex.pending.find? (ex.matches_at L · frame)).toList

variable {L}

/-- Without `multi` the first packet that waits and is answered takes the frame, and the loop ends. -/
theorem offer_to_single {ex : Exchange} (hsingle : ex.multi = false) (m : PacketMeta) (frame : Bytes)
    (is : List ℕ) :
    offer_to L m ⟨frame, dissect_spans L frame ex.link⟩ is none ex =
      ex.record m frame
        (is.find? fun i => !ex.got.getD i false && ex.matches_at L i frame).toList := by
  induction is with
  | nil => simp [offer_to]
  | cons i is ih =>
    rw [offer_to, List.find?_cons]
    -- A request with no key, one already answered, or one the frame does not answer is passed over.
    split
    · rename_i hkey
      simpa only [matches_at_none hkey, Bool.and_false] using ih
    · rename_i k hkey
      rw [matches_at_some hkey]
      simp only [hsingle, Bool.not_false, Bool.true_and]
      -- a request with its answer is not asked again
      by_cases hgot : ex.got.getD i false = true
      · simpa only [hgot, Bool.not_true, Bool.false_and, if_true] using ih
      · rw [Bool.not_eq_true] at hgot
        simp only [hgot, Bool.not_false, Bool.true_and, Bool.false_eq_true, if_false]
        by_cases hans : answers_matching L k ⟨frame, dissect_spans L frame ex.link⟩ ex.check_addr = true
        · simp [hans, record, mark, hsingle]
        · rw [Bool.not_eq_true] at hans
          simpa only [hans, Bool.not_false, if_true] using ih

/-- With `multi` a frame that is stored already is paired with every packet it answers. -/
theorem offer_to_kept {ex : Exchange} (hmulti : ex.multi = true) (m : PacketMeta) (frame : Bytes)
    (is : List ℕ) (at_ : ℕ) :
    offer_to L m ⟨frame, dissect_spans L frame ex.link⟩ is (some at_) ex =
      { ex with
        pairs := ex.pairs ++ (is.filter (ex.matches_at L · frame)).map (·, at_)
        got := mark ex.got (is.filter (ex.matches_at L · frame))
        sized := by rw [length_mark, ex.sized] } := by
  induction is generalizing ex with
  | nil => simp [offer_to, mark]
  | cons i is ih =>
    -- Only a request with a key that the frame answers is marked; the others leave the pass
    -- unchanged.
    rw [offer_to]
    split
    · rename_i hkey
      simp only [List.filter_cons, matches_at_none hkey]
      exact ih hmulti
    · rename_i k hkey
      simp only [List.filter_cons, matches_at_some hkey, hmulti]
      by_cases hans : answers_matching L k ⟨frame, dissect_spans L frame ex.link⟩ ex.check_addr = true
      -- with `multi` set the pass goes on behind a hit
      · let next : Exchange := { ex with
          pairs := ex.pairs ++ [(i, at_)], got := ex.got.set i true
          sized := by rw [List.length_set, ex.sized] }
        have hrest := @ih next hmulti
        simp only [hans]
        simpa [next, hmulti, mark, matches_at] using hrest
      · rw [Bool.not_eq_true] at hans
        simp only [hans]
        simpa [hmulti] using ih hmulti

/-- With `multi` a frame is stored once, for all the packets it answers. -/
theorem offer_to_multi {ex : Exchange} (hmulti : ex.multi = true) (m : PacketMeta) (frame : Bytes)
    (is : List ℕ) :
    offer_to L m ⟨frame, dissect_spans L frame ex.link⟩ is none ex =
      ex.record m frame (is.filter (ex.matches_at L · frame)) := by
  induction is with
  | nil => simp [offer_to]
  | cons i is ih =>
    rw [offer_to]
    split
    · rename_i hkey
      simpa [List.filter_cons, matches_at_none hkey] using ih
    · rename_i k hkey
      simp only [List.filter_cons, matches_at_some hkey, hmulti]
      by_cases hans : answers_matching L k ⟨frame, dissect_spans L frame ex.link⟩ ex.check_addr = true
      -- the first hit records the frame; those behind it find it recorded
      · let next : Exchange := { ex with
          out := ex.out.push m frame, pairs := ex.pairs ++ [(i, ex.out.len)], got := ex.got.set i true
          sized := by rw [List.length_set, ex.sized] }
        have hrest := @offer_to_kept L next hmulti m frame is ex.out.len
        simp only [hans]
        simpa [next, hmulti, mark, record, matches_at] using hrest
      · rw [Bool.not_eq_true] at hans
        simp only [hans]
        simpa [hmulti] using ih

theorem find_pending (ex : Exchange) (p : ℕ → Bool) :
    ex.pending.find? p = (List.range ex.keys.length).find? fun i => !ex.got.getD i false && p i := by
  simp [pending, ex.sized, List.find?_filter]

/-- **What an exchange makes of a frame is decided by who the frame is an answer for.** -/
theorem take_eq (ex : Exchange) (m : PacketMeta) (frame : Bytes) :
    ex.take L m frame = { ex.record m frame (ex.hits L frame) with scratch := frame } := by
  let read : Exchange := { ex with scratch := frame }
  have hread : ex.take L m frame = read.record m frame (ex.hits L frame) := by
    unfold take offer hits
    by_cases hmulti : ex.multi = true
    · rw [if_pos hmulti]
      exact @offer_to_multi L read hmulti m frame _
    · rw [if_neg hmulti, find_pending]
      exact @offer_to_single L read (by simpa using hmulti) m frame _
  exact hread

/-! ## A whole run -/

section Run

variable (L)

/-- An exchange after these frames. -/
def run (ex : Exchange) (read : List (PacketMeta × Bytes)) : Exchange :=
  read.foldl (fun ex x => ex.take L x.1 x.2) ex

/-- Who was paired with the how manieth frame. -/
def log (ex : Exchange) : List (PacketMeta × Bytes) → List (ℕ × ℕ)
  | [] => []
  | x :: read => (ex.hits L x.2).map (·, 0) ++ (log (ex.take L x.1 x.2) read).map fun y => (y.1, y.2 + 1)

end Run

variable {ex : Exchange} {m : PacketMeta} {frame : Bytes}

@[simp] theorem keys_take : (ex.take L m frame).keys = ex.keys := by rw [take_eq]; rfl
@[simp] theorem link_take : (ex.take L m frame).link = ex.link := by rw [take_eq]; rfl
@[simp] theorem multi_take : (ex.take L m frame).multi = ex.multi := by rw [take_eq]; rfl
@[simp] theorem check_addr_take : (ex.take L m frame).check_addr = ex.check_addr := by rw [take_eq]; rfl

@[simp] theorem matches_at_take (i : ℕ) (other : Bytes) :
    (ex.take L m frame).matches_at L i other = ex.matches_at L i other := by
  simp [matches_at]

theorem pairs_take : (ex.take L m frame).pairs = ex.pairs ++ (ex.hits L frame).map (·, ex.out.len) := by
  rw [take_eq]
  rfl

theorem out_take :
    (ex.take L m frame).out = if ex.hits L frame = [] then ex.out else ex.out.push m frame := by
  rw [take_eq]
  rfl

theorem mem_pending {i : ℕ} : i ∈ ex.pending ↔ i < ex.keys.length ∧ ex.got.getD i false = false := by
  simp [pending, ex.sized]

theorem pairwise_pending (ex : Exchange) : ex.pending.Pairwise (· < ·) :=
  List.pairwise_lt_range.filter _

/-- Whoever was given a frame waits no more. -/
theorem pending_take : (ex.take L m frame).pending = ex.pending.filter (· ∉ ex.hits L frame) := by
  have hgot : (ex.take L m frame).got = mark ex.got (ex.hits L frame) := by
    rw [take_eq]
    rfl
  rw [pending, pending, List.filter_filter, hgot, length_mark]
  apply List.filter_congr
  intro i hi
  rw [getD_mark _ _ (List.mem_range.1 hi)]
  simp

/-- Without `multi` the exchange gives frames out greedily. -/
theorem log_single (hsingle : ex.multi = false) (read : List (PacketMeta × Bytes)) :
    ex.log L read = Pairing.greedy (ex.matches_at L) ex.pending (read.map (·.2)) := by
  induction read generalizing ex with
  | nil => rfl
  | cons x read ih =>
    have hhits : ex.hits L x.2 = (ex.pending.find? (ex.matches_at L · x.2)).toList := by
      simp [hits, hsingle]
    have hleft : (ex.take L x.1 x.2).pending = Pairing.left (ex.matches_at L) ex.pending x.2 := by
      rw [pending_take, hhits, Pairing.left]
      cases ex.pending.find? (ex.matches_at L · x.2) with
      | none => simp
      | some i =>
        have hnodup : ex.pending.Nodup := (pairwise_pending ex).imp fun hlt => ne_of_lt hlt
        simp [hnodup.erase_eq_filter]
        rfl
    have hsame : (ex.take L x.1 x.2).matches_at L = ex.matches_at L := by
      funext i other
      exact matches_at_take i other
    rw [log, ih (by simpa using hsingle), hleft, hhits, hsame]
    simp [Pairing.greedy, Option.toList_map]

/-- With `multi` it gives every frame to everyone the frame answers. -/
theorem mem_log_multi (hmulti : ex.multi = true) (read : List (PacketMeta × Bytes)) {i k : ℕ} :
    (i, k) ∈ ex.log L read ↔
      i < ex.keys.length ∧ ∃ f ∈ (read.map (·.2))[k]?, ex.matches_at L i f = true := by
  induction read generalizing ex k with
  | nil => simp [log]
  | cons x read ih =>
    have hhits : ex.hits L x.2 = (List.range ex.keys.length).filter (ex.matches_at L · x.2) := by
      simp [hits, hmulti]
    cases k with
    | zero => simp [log, hhits]
    | succ k =>
      have hrest := @ih (ex.take L x.1 x.2) (by simpa using hmulti) k
      simpa [log, hhits] using hrest

/-- Under `multi` the log is ordered by the reply, and by the request where one reply answers
several. -/
theorem pairwise_log_multi (hmulti : ex.multi = true) (read : List (PacketMeta × Bytes)) :
    (ex.log L read).Pairwise fun x y => x.2 < y.2 ∨ x.2 = y.2 ∧ x.1 < y.1 := by
  induction read generalizing ex with
  | nil => simp [log]
  | cons x read ih =>
    have hhits : ex.hits L x.2 = (List.range ex.keys.length).filter (ex.matches_at L · x.2) := by
      simp [hits, hmulti]
    rw [log, List.pairwise_append]
    refine ⟨?_, ?_, ?_⟩
    · rw [hhits, List.pairwise_map]
      exact (List.pairwise_lt_range.filter _).imp fun hlt => .inr ⟨rfl, hlt⟩
    · rw [List.pairwise_map]
      refine (ih (by simpa using hmulti)).imp ?_
      rintro y z (hlt | ⟨heq, hlt⟩)
      · exact .inl (by simpa using hlt)
      · exact .inr ⟨by simpa using heq, hlt⟩
    · intro y hy z hz
      simp only [List.mem_map] at hy hz
      obtain ⟨i, -, rfl⟩ := hy
      obtain ⟨w, -, rfl⟩ := hz
      exact .inl (Nat.succ_pos _)

theorem run_append (ex : Exchange) (read more : List (PacketMeta × Bytes)) :
    ex.run L (read ++ more) = (ex.run L read).run L more := by
  simp [run]

theorem log_append (ex : Exchange) (read more : List (PacketMeta × Bytes)) :
    ex.log L (read ++ more) =
      ex.log L read ++ ((ex.run L read).log L more).map fun x => (x.1, x.2 + read.length) := by
  induction read generalizing ex with
  | nil => simp [log, run]
  | cons x read ih =>
    have hstep : ex.run L (x :: read) = (ex.take L x.1 x.2).run L read := rfl
    rw [List.cons_append, log, ih, log, hstep]
    simp [Nat.add_assoc]

theorem log_lt {read : List (PacketMeta × Bytes)} {x : ℕ × ℕ} (h : x ∈ ex.log L read) : x.2 < read.length := by
  induction read generalizing ex x with
  | nil => simp [log] at h
  | cons y read ih =>
    rw [log, List.mem_append, List.mem_map, List.mem_map] at h
    rcases h with ⟨i, -, rfl⟩ | ⟨z, hz, rfl⟩
    · exact Nat.succ_pos _
    · exact Nat.succ_lt_succ (ih hz)

/-- Who waits at the end was given none of the frames. -/
theorem pending_run (ex : Exchange) (read : List (PacketMeta × Bytes)) :
    (ex.run L read).pending = ex.pending.filter (· ∉ (ex.log L read).map (·.1)) := by
  induction read generalizing ex with
  | nil => simp [run, log]
  | cons x read ih =>
    have hstep : ex.run L (x :: read) = (ex.take L x.1 x.2).run L read := rfl
    rw [hstep, ih, pending_take, List.filter_filter]
    apply List.filter_congr
    intro i hi
    rw [Bool.eq_iff_iff]
    simp only [log, Bool.and_eq_true, decide_eq_true_eq, List.map_append, List.mem_append, List.map_map,
      not_or, Function.comp_def, List.map_id']
    exact and_comm

/-- What is kept is the frames that were given to someone. -/
theorem run_holds {frames : List Bytes} (hout : ex.out.Holds frames) (read : List (PacketMeta × Bytes))
    (hsize : ∀ x ∈ read, x.2.length < 2 ^ 32) :
    ∃ kept new, (ex.run L read).out.Holds (frames ++ kept) ∧ (ex.run L read).pairs = ex.pairs ++ new ∧
      new.map (fun x => (x.1, (frames ++ kept)[x.2]?)) =
        (ex.log L read).map fun x => (x.1, read[x.2]?.map (·.2)) := by
  induction read generalizing ex frames with
  | nil => exact ⟨[], [], by simpa [run] using hout, by simp [run], by simp [log]⟩
  | cons x read ih =>
    obtain ⟨hx, hread⟩ := List.forall_mem_cons.1 hsize
    have hstep : ex.run L (x :: read) = (ex.take L x.1 x.2).run L read := rfl
    have hlen : ex.out.len = frames.length := hout.1
    -- a frame is kept where someone was given it, once for all of them
    have hnext : (ex.take L x.1 x.2).out.Holds (frames ++ if ex.hits L x.2 = [] then [] else [x.2]) := by
      rw [out_take]
      split
      · rwa [List.append_nil]
      · exact hout.push x.1 hx
    obtain ⟨kept, new, hholds, hpairs, hnew⟩ := ih hnext hread
    refine ⟨(if ex.hits L x.2 = [] then [] else [x.2]) ++ kept, (ex.hits L x.2).map (·, ex.out.len) ++ new,
      ?_, ?_, ?_⟩
    · rwa [hstep, ← List.append_assoc]
    · rw [hstep, hpairs, pairs_take, List.append_assoc]
    · rw [List.append_assoc] at hnew
      rw [log, List.map_append, List.map_append, hnew]
      congr 1
      · by_cases hnone : ex.hits L x.2 = []
        · simp [hnone]
        · simp [hnone, hlen]
      · simp

end Exchange

/-! ## The pairing -/

/-- What a list of pairs is when `ans i k` says that frame `k` answers packet `i`: with `multi` all that
answer; without, each frame goes to the first packet it answers that no earlier frame went to. The pairs
stand in the order of the frames. -/
structure Paired (ans : ℕ → ℕ → Prop) (multi : Bool) (pairs : List (ℕ × ℕ)) : Prop where
  mem_iff (i k : ℕ) : (i, k) ∈ pairs ↔ ans i k ∧
    (multi = false → (∀ m < k, (i, m) ∉ pairs) ∧ ∀ j < i, ans j k → ∃ m < k, (j, m) ∈ pairs)
  ordered : pairs.Pairwise fun x y => x.2 < y.2 ∨ multi = true ∧ x.2 = y.2 ∧ x.1 < y.1

/-- Frame `k` answers packet `i`. -/
def AnsweredBy (L : Layers) (sent received : List Bytes) (sent_link link : ProtoId) (check_addr : Bool)
    (i k : ℕ) : Prop :=
  ∃ s ∈ sent[i]?, ∃ f ∈ received[k]?, ∃ key ∈ reply_key ⟨s, dissect_spans L s sent_link⟩,
    answers_matching L key ⟨f, dissect_spans L f link⟩ check_addr = true

namespace Exchange

variable {L : Layers} {sent : List Bytes} {sent_link link : ProtoId} {multi check_addr : Bool} {out : CaptureBuf}

theorem pending_new : (new L sent sent_link link multi check_addr out).pending = List.range sent.length := by
  rw [pending, new]
  simp

/-- A fresh exchange matches a frame against request `i` by the key filed for that request alone. -/
theorem matches_at_new {i : ℕ} {frame : Bytes} :
    (new L sent sent_link link multi check_addr out).matches_at L i frame = true ↔
      ∃ s ∈ sent[i]?, ∃ key ∈ reply_key ⟨s, dissect_spans L s sent_link⟩,
        answers_matching L key ⟨frame, dissect_spans L frame link⟩ check_addr = true := by
  rw [matches_at, new]
  simp only [List.getD_eq_getElem?_getD, List.getElem?_map]
  cases sent[i]? with
  | none => simp
  | some s =>
    cases hkey : reply_key ⟨s, dissect_spans L s sent_link⟩ with
    | none => simp [hkey]
    | some key => simp [hkey]

theorem answeredBy_iff {received : List Bytes} {i k : ℕ} :
    AnsweredBy L sent received sent_link link check_addr i k ↔ i < sent.length ∧
      ∃ f ∈ received[k]?, (new L sent sent_link link multi check_addr out).matches_at L i f = true := by
  simp only [AnsweredBy, matches_at_new]
  constructor
  · rintro ⟨s, hs, f, hf, key, hkey, hmatch⟩
    exact ⟨(List.getElem?_eq_some_iff.1 hs).1, f, hf, s, hs, key, hkey, hmatch⟩
  · rintro ⟨-, f, hf, s, hs, key, hkey, hmatch⟩
    exact ⟨s, hs, f, hf, key, hkey, hmatch⟩

/-- **An exchange pairs as its purpose says**, whatever it is given to read. -/
theorem paired_log (read : List (PacketMeta × Bytes)) :
    Paired (AnsweredBy L sent (read.map (·.2)) sent_link link check_addr) multi
      ((new L sent sent_link link multi check_addr out).log L read) := by
  have hlen : (new L sent sent_link link multi check_addr out).keys.length = sent.length := by simp [new]
  by_cases hmulti : multi = true
  · constructor
    · intro i k
      rw [mem_log_multi hmulti, hlen, @answeredBy_iff L sent sent_link link multi check_addr out]
      simp [hmulti]
    · refine (pairwise_log_multi hmulti read).imp ?_
      rintro x y (hlt | hlt)
      · exact .inl hlt
      · exact .inr ⟨hmulti, hlt⟩
  · rw [Bool.not_eq_true] at hmulti
    have hsorted : (List.range sent.length).Pairwise (· < ·) := List.pairwise_lt_range
    have hans := @answeredBy_iff L sent sent_link link multi check_addr out (read.map (·.2))
    rw [log_single hmulti, pending_new]
    constructor
    · intro i k
      rw [Pairing.mem_greedy_iff hsorted, hans]
      simp only [List.mem_range, hmulti, true_imp_iff]
      -- the frame is the same for every packet it might go to
      constructor
      · rintro ⟨hi, hfree, f, hf, hmatch, hfirst⟩
        refine ⟨⟨hi, f, hf, hmatch⟩, hfree, fun j hlt hj => ?_⟩
        obtain ⟨hjlt, f', hf', hjmatch⟩ := hans.1 hj
        obtain rfl := Option.mem_unique hf hf'
        exact hfirst j hjlt hlt hjmatch
      · rintro ⟨⟨hi, f, hf, hmatch⟩, hfree, hfirst⟩
        exact ⟨hi, hfree, f, hf, hmatch, fun j hj hlt hjmatch =>
          hfirst j hlt (hans.2 ⟨hj, f, hf, hjmatch⟩)⟩
    · exact (Pairing.pairwise_greedy _ _).imp .inl

end Exchange

/-- The frames as `pair_replies` hands them on. -/
def canned (frame : Bytes) : PacketMeta × Bytes :=
  (⟨0, 0, UInt32.ofNat frame.length, UInt32.ofNat frame.length⟩, frame)

/-- The replies of a batch are the exchange's own log, with the batch's offset on every reply's
index. -/
theorem replies_eq {L : Layers} (received : List Bytes) (at_ : ℕ) (pairs : List (ℕ × ℕ)) (ex : Exchange) :
    replies L received at_ pairs ex =
      (pairs ++ (ex.log L (received.map canned)).map fun x => (x.1, x.2 + at_),
        ex.run L (received.map canned)) := by
  induction received generalizing at_ pairs ex with
  | nil => simp [replies, Exchange.log, Exchange.run]
  | cons frame received ih =>
    have hnew : (ex.take L (canned frame).1 frame).pairs.drop ex.pairs.length =
        (ex.hits L frame).map (·, ex.out.len) := by
      rw [Exchange.pairs_take, List.drop_left]
    rw [replies, ih]
    simp only [canned] at hnew
    simp only [List.map_cons, Exchange.log, Exchange.run, canned, hnew, List.foldl_cons, List.map_append,
      List.map_map, List.append_assoc, Function.comp_def, Nat.zero_add]
    simp only [Nat.add_assoc, Nat.add_comm 1]

/-- **What `pair_replies` gives back**, for any packets and any frames: the pairs, and who was left. -/
theorem pair_replies_paired (L : Layers) (sent received : List Bytes) (link : ProtoId)
    (multi check_addr : Bool) :
    Paired (AnsweredBy L sent received link link check_addr) multi
        (pair_replies L sent received link multi check_addr).1 ∧
      (pair_replies L sent received link multi check_addr).2 = (List.range sent.length).filter
        (· ∉ (pair_replies L sent received link multi check_addr).1.map (·.1)) := by
  have hframes : (received.map canned).map (·.2) = received := by simp [Function.comp_def, canned]
  have hpaired := @Exchange.paired_log L sent link link multi check_addr (.new LINKTYPE_IPV4 262144)
    (received.map canned)
  rw [hframes] at hpaired
  simpa only [pair_replies, replies_eq, Exchange.pending_run, Exchange.pending_new, Nat.add_zero,
    List.nil_append, List.map_id', and_true] using hpaired

/-! ## Live -/

/-- `collect` until a phase is over: every packet is answered, or there is a deadline that may have passed. -/
inductive Collects (L : Layers) (deadline : Bool) : Exchange → List (PacketMeta × Bytes) → Exchange → Prop
  | done {ex : Exchange} (h : ex.settled = true ∨ deadline = true) : Collects L deadline ex [] ex
  | read {ex ex' : Exchange} {m : PacketMeta} {frame : Bytes} {more : List (PacketMeta × Bytes)}
      (h : ex.settled = false) (hmore : Collects L deadline (ex.take L m frame) more ex') :
      Collects L deadline ex ((m, frame) :: more) ex'

/-- What one round sent, and what was read until it was over. -/
structure Round where
  batch : List ℕ
  read : List (PacketMeta × Bytes)

/-- The rounds of `sr_live` while `n` are left. -/
inductive Sends (L : Layers) (deadline : Bool) : ℕ → Exchange → List Round → Exchange → Prop
  | out {ex : Exchange} : Sends L deadline 0 ex [] ex
  | none_pending {n : ℕ} {ex : Exchange} (h : ex.pending = []) : Sends L deadline (n + 1) ex [] ex
  | round {n : ℕ} {ex ex' ex'' : Exchange} {read : List (PacketMeta × Bytes)} {rounds : List Round}
      (h : ex.pending ≠ []) (hread : Collects L deadline ex read ex')
      (hmore : Sends L deadline n ex' rounds ex'') :
      Sends L deadline (n + 1) ex (⟨ex.pending, read⟩ :: rounds) ex''

def Round.frames (rounds : List Round) : List (PacketMeta × Bytes) := rounds.flatMap (·.read)

/-- A call of `sr_live` that sent these batches, read these frames and returned from this exchange. -/
def sr_live (L : Layers) (frames : List Bytes) (sent_link link : ProtoId) (retry : ℕ) (deadline multi : Bool)
    (check_addr : Bool) (dlt snaplen : UInt32) (rounds : List Round) (ex : Exchange) : Prop :=
  Sends L deadline (retry + 1)
    (.new L frames sent_link link multi check_addr (.new dlt snaplen)) rounds ex

section Live

variable {L : Layers} {deadline : Bool}

theorem Collects.run_eq {ex ex' : Exchange} {read : List (PacketMeta × Bytes)}
    (h : Collects L deadline ex read ex') : ex' = ex.run L read := by
  induction h with
  | done => rfl
  | read hopen hmore ih => exact ih

/-- Without a deadline a phase is over only when everything is answered. -/
theorem Collects.settles {ex ex' : Exchange} {read : List (PacketMeta × Bytes)}
    (h : Collects L false ex read ex') : ex'.settled = true := by
  induction h with
  | done hover => simpa using hover
  | read hopen hmore ih => exact ih

theorem Exchange.pending_of_settled {ex : Exchange} (h : ex.settled = true) : ex.pending = [] := by
  simp only [Exchange.settled, Bool.and_eq_true, List.all_eq_true] at h
  apply List.filter_eq_nil_iff.2
  intro i hi
  have hgot := h.2 _ (List.getElem_mem (List.mem_range.1 hi))
  simpa [List.getD_eq_getElem?_getD, List.getElem?_eq_getElem (List.mem_range.1 hi)] using hgot

theorem Sends.run_eq {n : ℕ} {ex ex' : Exchange} {rounds : List Round} (h : Sends L deadline n ex rounds ex') :
    ex' = ex.run L (Round.frames rounds) := by
  induction h with
  | out => rfl
  | none_pending => rfl
  | round hpending hread hmore ih =>
    rw [ih, hread.run_eq, ← Exchange.run_append]
    rfl

/-- A round sends what the frames of the rounds before left over. -/
theorem Sends.batch_eq {n : ℕ} {ex ex' : Exchange} {rounds : List Round} (h : Sends L deadline n ex rounds ex')
    {before after : List Round} {r : Round} (hr : rounds = before ++ r :: after) :
    r.batch = (ex.run L (Round.frames before)).pending ∧ r.batch ≠ [] := by
  induction h generalizing before with
  | out => simp at hr
  | none_pending => simp at hr
  | @round n ex ex' ex'' read rounds hpending hread hmore ih =>
    cases before with
    | nil =>
      obtain ⟨rfl, -⟩ := List.cons.inj hr
      exact ⟨rfl, hpending⟩
    | cons b before =>
      obtain ⟨rfl, hrest⟩ := List.cons.inj hr
      have hbatch := ih hrest
      rw [hread.run_eq, ← Exchange.run_append] at hbatch
      exact hbatch

theorem Sends.length_le {n : ℕ} {ex ex' : Exchange} {rounds : List Round}
    (h : Sends L deadline n ex rounds ex') : rounds.length ≤ n := by
  induction h with
  | out => exact le_rfl
  | none_pending => exact Nat.zero_le _
  | round hpending hread hmore ih => simpa using ih

/-- Rounds that are not cut short by a deadline are one at most, and leave nothing unanswered. -/
theorem Sends.without_deadline {n : ℕ} {ex ex' : Exchange} {rounds : List Round}
    (h : Sends L false (n + 1) ex rounds ex') : ex'.pending = [] ∧ rounds.length ≤ 1 := by
  cases h with
  | none_pending hnone => exact ⟨hnone, Nat.zero_le _⟩
  | round hpending hread hmore =>
    have hnone := Exchange.pending_of_settled hread.settles
    cases hmore with
    | out => exact ⟨hnone, le_rfl⟩
    | none_pending => exact ⟨hnone, le_rfl⟩
    | round hsome => exact absurd hnone hsome

end Live

/-- **What `sr_live` gives back** over any rounds of sending and reading: the pairs of all the frames it
read, each naming the octets that answered, who is left, and that only who was left was sent again. -/
theorem sr_live_pairs (L : Layers) (frames : List Bytes) (sent_link link : ProtoId) (retry : ℕ)
    (deadline multi check_addr : Bool) (dlt snaplen : UInt32) (rounds : List Round) (ex : Exchange)
    (hsize : ∀ x ∈ Round.frames rounds, x.2.length < 2 ^ 32)
    (h : sr_live L frames sent_link link retry deadline multi check_addr dlt snaplen rounds ex) :
    let read := (Round.frames rounds).map (·.2)
    ∃ pairs, Paired (AnsweredBy L frames read sent_link link check_addr) multi pairs ∧
      ex.pairs.map (fun x => (x.1, ex.out.frame x.2)) = pairs.map (fun x => (x.1, read[x.2]?)) ∧
      ex.pending = (List.range frames.length).filter (· ∉ pairs.map (·.1)) ∧
      rounds.length ≤ retry + 1 ∧
      (∀ before r after, rounds = before ++ r :: after → r.batch ≠ [] ∧
        r.batch = (List.range frames.length).filter fun i =>
          ∀ x ∈ pairs, x.1 = i → (Round.frames before).length ≤ x.2) ∧
      (deadline = false → ex.pending = [] ∧ rounds.length ≤ 1) := by
  intro read
  let start := Exchange.new L frames sent_link link multi check_addr (.new dlt snaplen)
  have hrun : ex = start.run L (Round.frames rounds) := Sends.run_eq h
  have hnone : start.out.Holds [] := CaptureBuf.holds_new dlt snaplen
  obtain ⟨kept, new, hholds, hpairs, hnew⟩ :=
    Exchange.run_holds (L := L) hnone (Round.frames rounds) hsize
  refine ⟨start.log L (Round.frames rounds), Exchange.paired_log (Round.frames rounds), ?_, ?_,
    Sends.length_le h, ?_, ?_⟩
  · have hempty : start.pairs = [] := rfl
    rw [hrun, hpairs, hempty]
    simp only [read, List.getElem?_map, ← hnew, hholds.2, List.nil_append]
  · rw [hrun, Exchange.pending_run, Exchange.pending_new]
  · intro before r after hr
    obtain ⟨hbatch, hsome⟩ := Sends.batch_eq h hr
    refine ⟨hsome, ?_⟩
    rw [hbatch, Exchange.pending_run, Exchange.pending_new]
    apply List.filter_congr
    intro i hi
    have hframes : Round.frames rounds = Round.frames before ++ Round.frames (r :: after) := by
      rw [hr, Round.frames, List.flatMap_append]
      rfl
    rw [hframes, Exchange.log_append, Bool.eq_iff_iff, decide_eq_true_eq, decide_eq_true_eq]
    -- the frames of this round and the later ones are numbered behind those of the rounds before
    constructor
    · intro hnot x hx heq
      rcases List.mem_append.1 hx with hx | hx
      · exact absurd (List.mem_map.2 ⟨x, hx, heq⟩) hnot
      · obtain ⟨y, -, rfl⟩ := List.mem_map.1 hx
        exact Nat.le_add_left _ _
    · intro hlate hmem
      obtain ⟨x, hx, heq⟩ := List.mem_map.1 hmem
      exact absurd (hlate x (List.mem_append_left _ hx) heq) (Nat.not_le.2 (Exchange.log_lt hx))
  · rintro rfl
    exact Sends.without_deadline h

/-- A segment and what comes back, in one round that a deadline ended. -/
def one_round : List Round := [⟨[0], [canned (segment 4 3 6 5).buf]⟩]

theorem sends_one {L : Layers} {ex : Exchange} {x : PacketMeta × Bytes} (hopen : ex.settled = false)
    (hpending : ex.pending = [0]) : Sends L true 1 ex [⟨[0], [x]⟩] (ex.take L x.1 x.2) := by
  rw [← hpending]
  exact .round (by simp [hpending]) (.read hopen (.done (.inr rfl))) .out

theorem sr_live_pairs_one :
    ∃ pairs, Paired (AnsweredBy Layers.core [(segment 3 4 5 6).buf] [(segment 4 3 6 5).buf] .Ipv4 .Ipv4 true)
        false pairs ∧
      (∀ before r after, one_round = before ++ r :: after → r.batch ≠ [] ∧
        r.batch = (List.range 1).filter fun i =>
          ∀ x ∈ pairs, x.1 = i → (Round.frames before).length ≤ x.2) := by
  obtain ⟨pairs, hpaired, -, -, -, hbatch, -⟩ := sr_live_pairs Layers.core [(segment 3 4 5 6).buf] .Ipv4 .Ipv4 0
    true false true LINKTYPE_IPV4 262144 one_round _ (by decide) (sends_one (by rfl) (by rfl))
  exact ⟨pairs, hpaired, hbatch⟩

end Wiry.Answers
