/-
`crates/wiry-py/src/sniff.rs`, and `sniff_offline` of `crates/wiry-py/src/lib.rs`.

Python's callbacks run in a monad of which nothing is assumed: they may raise and may keep state. The
clock is what a driver hands over with each frame; the floating-point `timeout` that a deadline is made
of is left out.
-/
import Mathlib
import Wiry.Columnar.Columns

set_option autoImplicit false

namespace Wiry.Columnar

def Query.is_empty (q : Query) : Bool := q.layer.isNone && q.conds.isEmpty

/-- An empty query matches every packet, so it may be skipped. -/
theorem Query.matches_of_is_empty {q : Query} (h : q.is_empty = true) (buf : Packet.Bytes)
    (spans : List Packet.LayerSpan) : q.matches_spans buf spans = true := by
  simp only [is_empty, Bool.and_eq_true, Option.isNone_iff_eq_none, List.isEmpty_iff] at h
  simp [matches_spans, h.1, h.2]

end Wiry.Columnar

namespace Wiry.Sniff

open Columnar (Query)
open MonadAttach (CanReturn)
open Packet (Bytes Layers LayerSpan ProtoId dissect_spans)

/-! ## Through the first -/

section Through

variable {α : Type} (p : α → Bool)

/-- A list up to the first entry that satisfies `p`, and with it. -/
def through (l : List α) : List α := l.take (l.findIdx p + 1)

@[simp] theorem through_nil : through p [] = [] := rfl

theorem through_cons (x : α) (l : List α) : through p (x :: l) = x :: if p x then [] else through p l := by
  by_cases hx : p x = true
  · simp [through, List.findIdx_cons, hx]
  · simp [through, List.findIdx_cons, hx]

theorem through_sublist (l : List α) : (through p l).Sublist l := List.take_sublist _ _

end Through

/-! ## The state machine -/

/-- A frame as a driver hands it over, with the clock as `step` reads it. -/
structure Frame where
  now : ℕ
  data : Bytes
  sec : UInt32
  frac : UInt32
  wirelen : UInt32

/-- The packet a callback is given: its time is left as the two halves that an `f64` is made of. -/
structure PyPkt where
  buf : Bytes
  spans : List LayerSpan
  time : UInt32 × UInt32
  wirelen : UInt32

inductive Flow where
  | Continue
  | Stop
  deriving DecidableEq

/-- The flow of a test. -/
theorem Flow.stop_iff {p : Prop} [Decidable p] :
    (if p then Flow.Stop else Flow.Continue) = Flow.Stop ↔ p := by
  by_cases hp : p
  · simp [hp]
  · simp [hp]

structure SniffState (m : Type → Type) (PyObject : Type) where
  /-- 0 means unbounded. -/
  count : ℕ
  store : Bool
  deadline : Option ℕ
  bpf : Option (Bytes → Bool)
  query : Query
  prn : Option (PyObject → m Unit)
  lfilter : Option (PyObject → m Bool)
  stop_filter : Option (PyObject → m Bool)
  /-- Turns a bare `Pkt` into the facade's packet, once per surviving frame. -/
  wrap : Option (PyPkt → m PyObject)
  kept : ℕ

namespace SniffState

section Machine

variable {m : Type → Type} {PyObject : Type} [Coe PyPkt PyObject]
variable (st : SniffState m PyObject) (L : Layers) (link : ProtoId)

def needs_python : Bool := st.prn.isSome || st.lfilter.isSome || st.stop_filter.isSome

omit [Coe PyPkt PyObject] in
/-- Where Python is not needed, there is nothing to ask. -/
theorem unasked (h : st.needs_python = false) : st.prn = none ∧ st.lfilter = none ∧ st.stop_filter = none := by
  simp only [needs_python, Bool.or_eq_false_iff, Option.isSome_eq_false_iff, Option.isNone_iff_eq_none] at h
  exact ⟨h.1.1, h.1.2, h.2⟩

def expired (now : ℕ) : Bool := st.deadline.any fun d => decide (d ≤ now)

/-- The deadline, polled between reads. -/
def tick (now : ℕ) : Flow := if st.expired now then .Stop else .Continue

def passes (data : Bytes) : Bool :=
  st.bpf.all (fun f => f data) && (st.query.is_empty || st.query.matches_spans data (dissect_spans L data link))

/-- After one frame more was kept. -/
def counted : SniffState m PyObject := { st with kept := st.kept + 1 }

/-- Whether to store this frame, and whether to keep sniffing. -/
def accept : (Bool × Flow) × SniffState m PyObject :=
  let st := st.counted
  ((st.store, if 0 < st.count ∧ st.count ≤ st.kept then .Stop else .Continue), st)

/-- The fast path: no Python predicate. -/
def step (fr : Frame) : (Bool × Flow) × SniffState m PyObject :=
  if st.expired fr.now then ((false, .Stop), st)
  else if !st.passes L link fr.data then ((false, .Continue), st)
  else st.accept

variable [Monad m]

/-- What the callbacks are shown of a frame. -/
def object (fr : Frame) : m PyObject :=
  let raw : PyPkt := ⟨fr.data, dissect_spans L fr.data link, (fr.sec, fr.frac), fr.wirelen⟩
  match st.wrap with
  | some w => w raw
  | none => pure raw

/-- A predicate that was not given answers `absent`. -/
def ask (f : Option (PyObject → m Bool)) (absent : Bool) (pkt : PyObject) : m Bool :=
  match f with
  | some f => f pkt
  | none => pure absent

def print (pkt : PyObject) : m Unit :=
  match st.prn with
  | some f => f pkt
  | none => pure ()

/-- The slow path: the object is built once and shared by all three callbacks. -/
def step_py (fr : Frame) : m ((Bool × Flow) × SniffState m PyObject) :=
  if st.expired fr.now then pure ((false, .Stop), st)
  else if !st.passes L link fr.data then pure ((false, .Continue), st)
  else do
    let pkt ← st.object L link fr
    let wanted ← ask st.lfilter true pkt
    if !wanted then pure ((false, .Continue), st)
    else do
      let ((store, flow), st) := st.accept
      st.print pkt
      let stopped ← ask st.stop_filter false pkt
      pure ((store, if stopped then .Stop else flow), st)

/-- The step of every driver, by whichever path. -/
def step_any (fr : Frame) : m ((Bool × Flow) × SniffState m PyObject) :=
  if st.needs_python then st.step_py L link fr else pure (st.step L link fr)

/-- The loop of `sniff_offline` from record `i` on. -/
def offline_from (st : SniffState m PyObject) : List Frame → ℕ → List ℕ → m (List ℕ)
  | [], _, keep => pure keep
  | fr :: rest, i, keep => do
    let ((put, flow), st) ← st.step_any L link fr
    let keep := if put then keep ++ [i] else keep
    if flow = .Stop then pure keep else offline_from st rest (i + 1) keep

/-- The positions that `sniff_offline` keeps. They are `u32`: this stands for it over captures of at most
`2 ^ 32` frames. -/
def sniff_offline (frames : List Frame) : m (List ℕ) := st.offline_from L link frames 0 []

variable {st L link}

/-- With no callback to call the slow path is the fast one. -/
theorem step_py_plain [LawfulMonad m] (h : st.needs_python = false) (hwrap : st.wrap = none) (fr : Frame) :
    st.step_py L link fr = pure (st.step L link fr) := by
  obtain ⟨hprn, hlfilter, hstop⟩ := st.unasked h
  by_cases hexp : st.expired fr.now = true
  · simp [step_py, step, hexp]
  by_cases hpass : st.passes L link fr.data = true
  · simp [step_py, step, hexp, hpass, object, hwrap, ask, hlfilter, print, accept, counted, hprn, hstop]
  · simp [step_py, step, hexp, hpass]

end Machine

/-! ## What is kept

`shown` and `last` are what `lfilter` and `stop_filter` answer about a frame whenever they do answer. -/

section Kept

variable {m : Type → Type} {PyObject : Type} [Coe PyPkt PyObject] [Monad m] [MonadAttach m]
variable (st : SniffState m PyObject) (L : Layers) (link : ProtoId)

structure Answer (shown last : Frame → Bool) : Prop where
  lfilter : ∀ f ∈ st.lfilter, ∀ fr pkt b, CanReturn (st.object L link fr) pkt → CanReturn (f pkt) b →
    b = shown fr
  stop_filter : ∀ f ∈ st.stop_filter, ∀ fr pkt b, CanReturn (st.object L link fr) pkt →
    CanReturn (f pkt) b → b = last fr

variable {st L link} {shown last : Frame → Bool}

theorem Answer.counted (hans : st.Answer L link shown last) : st.counted.Answer L link shown last :=
  ⟨hans.lfilter, hans.stop_filter⟩

end Kept

section Spec

variable {m : Type → Type} {PyObject : Type}
variable (st : SniffState m PyObject) (L : Layers) (link : ProtoId) (shown last : Frame → Bool)

def wanted (fr : Frame) : Bool := st.passes L link fr.data && (st.lfilter.isNone || shown fr)

def closes (fr : Frame) : Bool := st.stop_filter.isSome && last fr

@[simp] theorem counted_wanted (fr : Frame) : st.counted.wanted L link shown fr = st.wanted L link shown fr := rfl

@[simp] theorem counted_closes (fr : Frame) : st.counted.closes last fr = st.closes last fr := rfl

@[simp] theorem counted_expired (now : ℕ) : st.counted.expired now = st.expired now := rfl

@[simp] theorem counted_count : st.counted.count = st.count := rfl

@[simp] theorem counted_kept : st.counted.kept = st.kept + 1 := rfl

@[simp] theorem counted_store : st.counted.store = st.store := rfl

/-- Of frames under any labels, those a sniffer takes: of those that came in time the wanted ones, through
the first that closes, and no more than there is room for. -/
def taken {ι : Type} (frames : List (Frame × ι)) : List (Frame × ι) :=
  let in_time := frames.takeWhile fun x => !st.expired x.1.now
  let found := through (fun x => st.closes last x.1) (in_time.filter fun x => st.wanted L link shown x.1)
  if st.count = 0 then found else found.take (st.count - st.kept)

/-- There is room for another frame, as there is in a state that `new` made. -/
def Room : Prop := st.count = 0 ∨ st.kept < st.count

variable {st L link shown last} {ι : Type} {fr : Frame} {i : ι} {rest : List (Frame × ι)}

theorem room_counted (hfull : ¬(0 < st.count ∧ st.count ≤ st.kept + 1)) : st.counted.Room := by
  unfold Room
  rw [counted_count, counted_kept]
  omega

@[simp] theorem taken_nil : st.taken L link shown last ([] : List (Frame × ι)) = [] := by
  simp [taken]

theorem taken_expired (h : st.expired fr.now = true) : st.taken L link shown last ((fr, i) :: rest) = [] := by
  simp [taken, h]

theorem taken_unwanted (h : st.expired fr.now = false) (hnot : st.wanted L link shown fr = false) :
    st.taken L link shown last ((fr, i) :: rest) = st.taken L link shown last rest := by
  simp [taken, h, hnot]

/-- The frame taken, and what is left to take: nothing where it closes or is the last there was room for. -/
theorem taken_wanted (hroom : st.Room) (h : st.expired fr.now = false) (hwant : st.wanted L link shown fr = true) :
    st.taken L link shown last ((fr, i) :: rest) = (fr, i) ::
      if st.closes last fr = true ∨ (0 < st.count ∧ st.count ≤ st.kept + 1) then []
      else st.counted.taken L link shown last rest := by
  simp only [taken, counted_wanted, counted_closes, counted_expired, counted_count, counted_kept,
    List.takeWhile_cons, h, Bool.not_false, if_true, List.filter_cons, hwant, through_cons]
  rcases Nat.eq_zero_or_pos st.count with hcount | hcount
  · by_cases hlast : st.closes last fr = true
    · simp [hcount, hlast]
    · simp [hcount, hlast]
  · have hmore : st.count - st.kept = st.count - (st.kept + 1) + 1 := by
      rcases hroom with hzero | hroom <;> omega
    simp only [hcount.ne', if_false, hmore, List.take_succ_cons]
    by_cases hlast : st.closes last fr = true
    · simp [hlast]
    · by_cases hfull : st.count ≤ st.kept + 1
      · simp [hfull, hcount, Nat.sub_eq_zero_of_le hfull]
      · simp [hlast, hfull]

/-- The frame at `k` is taken. -/
structure Takes (st : SniffState m PyObject) (L : Layers) (link : ProtoId) (shown last : Frame → Bool)
    (frames : List Frame) (k : ℕ) : Prop where
  wanted : ∃ fr, frames[k]? = some fr ∧ st.wanted L link shown fr = true
  in_time : ∀ fr ∈ frames.take (k + 1), st.expired fr.now = false
  unclosed : ∀ fr ∈ frames.take k, st.wanted L link shown fr = true → st.closes last fr = false
  room : st.count = 0 ∨ st.kept + (frames.take k).countP (st.wanted L link shown) < st.count

variable {frames : List Frame} {k : ℕ}

theorem takes_zero : st.Takes L link shown last (fr :: frames) 0 ↔
    st.expired fr.now = false ∧ st.wanted L link shown fr = true ∧ st.Room := by
  constructor
  · intro h
    obtain ⟨x, hx, hwanted⟩ := h.wanted
    obtain rfl : fr = x := by simpa using hx
    exact ⟨h.in_time fr (by simp), hwanted, by simpa [Room] using h.room⟩
  · rintro ⟨hexp, hwanted, hroom⟩
    exact ⟨⟨fr, rfl, hwanted⟩, by simpa using hexp, by simp, by simpa [Room] using hroom⟩

/-- A frame that is not wanted is passed by, unless the time is over. -/
theorem takes_succ_unwanted (hnot : st.wanted L link shown fr = false) :
    st.Takes L link shown last (fr :: frames) (k + 1) ↔
      st.expired fr.now = false ∧ st.Takes L link shown last frames k := by
  constructor
  · intro h
    refine ⟨h.in_time fr (by simp), by simpa using h.wanted, fun x hx => h.in_time x ?_,
      fun x hx => h.unclosed x ?_, by simpa [hnot] using h.room⟩
    · rw [List.take_succ_cons]
      exact List.mem_cons_of_mem _ hx
    · rw [List.take_succ_cons]
      exact List.mem_cons_of_mem _ hx
  · rintro ⟨hexp, h⟩
    exact ⟨by simpa using h.wanted, by simpa [hexp] using h.in_time, by simpa [hnot] using h.unclosed,
      by simpa [hnot] using h.room⟩

/-- One that is wanted is counted, unless it closes the capture. -/
theorem takes_succ_wanted (hwant : st.wanted L link shown fr = true) :
    st.Takes L link shown last (fr :: frames) (k + 1) ↔
      st.expired fr.now = false ∧ st.closes last fr = false ∧
        st.counted.Takes L link shown last frames k := by
  -- the room left is counted alike from before the frame and from behind it
  have hroom : (st.kept + 1 + (frames.take k).countP (st.wanted L link shown) < st.count) ↔
      st.kept + ((fr :: frames).take (k + 1)).countP (st.wanted L link shown) < st.count := by
    rw [List.take_succ_cons, List.countP_cons_of_pos hwant]
    omega
  constructor
  · intro h
    refine ⟨h.in_time fr (by simp), h.unclosed fr (by simp) hwant, by simpa using h.wanted,
      fun x hx => h.in_time x ?_, fun x hx => h.unclosed x ?_, h.room.imp id hroom.2⟩
    · rw [List.take_succ_cons]
      exact List.mem_cons_of_mem _ hx
    · rw [List.take_succ_cons]
      exact List.mem_cons_of_mem _ hx
  · rintro ⟨hexp, hcloses, h⟩
    refine ⟨by simpa using h.wanted, ?_, ?_, h.room.imp id hroom.1⟩
    · intro x hx
      rw [List.take_succ_cons] at hx
      exact (List.mem_cons.1 hx).elim (fun heq => heq ▸ hexp) (h.in_time x)
    · intro x hx hwanted
      rw [List.take_succ_cons] at hx
      exact (List.mem_cons.1 hx).elim (fun heq => heq ▸ hcloses) fun hmem => h.unclosed x hmem hwanted

/-- The labels of what is taken are the positions taken. -/
theorem mem_taken (hroom : st.Room) (n i : ℕ) :
    i ∈ (st.taken L link shown last (frames.zipIdx n)).map Prod.snd ↔
      ∃ k, i = n + k ∧ st.Takes L link shown last frames k := by
  induction frames generalizing st n with
  | nil =>
    have hnone : ∀ k, ¬st.Takes L link shown last [] k := fun k h => by simpa using h.wanted
    simp [hnone]
  | cons fr rest ih =>
    rw [List.zipIdx_cons]
    -- where the rest is taken from, one position on
    have hshift : ∀ {P : ℕ → Prop}, (∃ k, i = n + 1 + k ∧ P k) ↔ ∃ k, i = n + (k + 1) ∧ P k := fun {P} => by
      simp only [Nat.add_assoc, Nat.add_comm 1]
    have hsplit : ∀ {P : ℕ → Prop}, (∃ k, i = n + k ∧ P k) ↔ (i = n ∧ P 0) ∨ ∃ k, i = n + (k + 1) ∧ P (k + 1) :=
      fun {P} => ⟨fun ⟨k, hi, hk⟩ => by
        rcases k with - | k
        · exact .inl ⟨hi, hk⟩
        · exact .inr ⟨k, hi, hk⟩, fun h => h.elim (fun ⟨hi, hz⟩ => ⟨0, hi, hz⟩) fun ⟨k, hi, hk⟩ => ⟨k + 1, hi, hk⟩⟩
    rw [hsplit]
    by_cases hexp : st.expired fr.now = true
    · have hnone : ∀ k, ¬st.Takes L link shown last (fr :: rest) k := fun k h =>
        absurd (h.in_time fr (by simp)) (by simp [hexp])
      simp [taken_expired hexp, hnone]
    rw [Bool.not_eq_true] at hexp
    by_cases hwant : st.wanted L link shown fr = true
    · simp only [taken_wanted hroom hexp hwant, takes_zero, takes_succ_wanted hwant, hexp, hwant, hroom,
        true_and, and_true, List.map_cons, List.mem_cons]
      by_cases hlast : st.closes last fr = true
      · simp [hlast]
      by_cases hfull : 0 < st.count ∧ st.count ≤ st.kept + 1
      · have hnone : ∀ k, ¬st.counted.Takes L link shown last rest k := fun k h => by
          have hroom' := h.room
          rw [counted_count, counted_kept] at hroom'
          omega
        simp [hfull, hnone]
      · rw [if_neg (not_or.2 ⟨hlast, hfull⟩), ih (room_counted hfull), hshift]
        simp [hlast]
    · rw [Bool.not_eq_true] at hwant
      simp only [taken_unwanted hexp hwant, takes_zero, takes_succ_unwanted hwant, hexp, hwant,
        true_and, false_and, and_false, false_or, Bool.false_eq_true]
      rw [ih hroom, hshift]

theorem taken_sublist {ι : Type} (frames : List (Frame × ι)) :
    (st.taken L link shown last frames).Sublist frames := by
  have hfound := (through_sublist (fun x => st.closes last x.1) _).trans
    ((List.filter_sublist (p := fun x : Frame × ι => st.wanted L link shown x.1)).trans
      (List.takeWhile_sublist (l := frames) fun x => !st.expired x.1.now))
  unfold taken
  by_cases hcount : st.count = 0
  · simpa [hcount] using hfound
  · simpa [hcount] using (List.take_sublist _ _).trans hfound

end Spec

section Run

variable {m : Type → Type} {PyObject : Type} [Monad m] [LawfulMonad m] [MonadAttach m] [LawfulMonadAttach m]

theorem ask_answers {f : Option (PyObject → m Bool)} {absent b : Bool} {pkt : PyObject}
    (h : CanReturn (ask f absent pkt) b) : f = none ∧ b = absent ∨ ∃ g, f = some g ∧ CanReturn (g pkt) b := by
  rcases f with - | g
  · exact .inl ⟨rfl, (LawfulMonadAttach.eq_of_canReturn_pure h).symm⟩
  · exact .inr ⟨g, rfl, h⟩

variable [Coe PyPkt PyObject]
variable {st : SniffState m PyObject} {L : Layers} {link : ProtoId} {shown last : Frame → Bool}

/-- Everything a step can do. -/
theorem step_any_cases (hans : st.Answer L link shown last) {fr : Frame} {put : Bool} {flow : Flow}
    {st' : SniffState m PyObject} (h : CanReturn (st.step_any L link fr) ((put, flow), st')) :
    (st.expired fr.now = true ∧ put = false ∧ flow = .Stop ∧ st' = st) ∨
    (st.expired fr.now = false ∧ st.wanted L link shown fr = false ∧ put = false ∧ flow = .Continue ∧ st' = st) ∨
    (st.expired fr.now = false ∧ st.wanted L link shown fr = true ∧ put = st.store ∧
      (flow = .Stop ↔ st.closes last fr = true ∨ (0 < st.count ∧ st.count ≤ st.kept + 1)) ∧
      st' = st.counted) := by
  unfold step_any at h
  -- the clock is asked first: past the deadline the frame is not even looked at
  by_cases hexp : st.expired fr.now = true
  · left
    have hfast : st.step L link fr = ((false, .Stop), st) := by simp [step, hexp]
    have hslow : st.step_py L link fr = pure ((false, .Stop), st) := by simp [step_py, hexp]
    rw [hfast, hslow, ite_self] at h
    obtain ⟨⟨rfl, rfl⟩, rfl⟩ : (false = put ∧ Flow.Stop = flow) ∧ st = st' := by
      simpa using LawfulMonadAttach.eq_of_canReturn_pure h
    exact ⟨hexp, rfl, rfl, rfl⟩
  right
  rw [Bool.not_eq_true] at hexp
  by_cases hpass : st.passes L link fr.data = true
  · by_cases hpy : st.needs_python = true
    · simp only [if_pos hpy, step_py, hexp, hpass, Bool.false_eq_true, if_false, Bool.not_true] at h
      obtain ⟨pkt, hpkt, h⟩ := LawfulMonadAttach.canReturn_bind_imp' h
      obtain ⟨b, hb, h⟩ := LawfulMonadAttach.canReturn_bind_imp' h
      -- `lfilter` is asked about the one packet that both callbacks see
      have hwanted : st.wanted L link shown fr = b := by
        rcases ask_answers hb with ⟨hnone, rfl⟩ | ⟨f, hf, hfb⟩
        · simp [wanted, hpass, hnone]
        · simp [wanted, hpass, hf, hans.lfilter f hf fr pkt b hpkt hfb]
      cases hcase : b with
      | false =>
        left
        rw [hcase] at h
        obtain ⟨⟨rfl, rfl⟩, rfl⟩ : (false = put ∧ Flow.Continue = flow) ∧ st = st' := by
          simpa using LawfulMonadAttach.eq_of_canReturn_pure h
        exact ⟨hexp, hwanted.trans hcase, rfl, rfl, rfl⟩
      | true =>
        right
        rw [hcase] at h
        obtain ⟨-, -, h⟩ := LawfulMonadAttach.canReturn_bind_imp' h
        obtain ⟨s, hs, h⟩ := LawfulMonadAttach.canReturn_bind_imp' h
        -- and `stop_filter` after `prn` has printed it
        have hcloses : st.closes last fr = s := by
          rcases ask_answers hs with ⟨hnone, rfl⟩ | ⟨f, hf, hfs⟩
          · have hnone : st.stop_filter = none := hnone
            simp [closes, hnone]
          · have hf : st.stop_filter = some f := hf
            simp [closes, hf, hans.stop_filter f hf fr pkt s hpkt hfs]
        have heq := LawfulMonadAttach.eq_of_canReturn_pure h
        simp only [accept, Prod.mk.injEq] at heq
        obtain ⟨⟨rfl, rfl⟩, rfl⟩ := heq
        refine ⟨hexp, hwanted.trans hcase, rfl, ?_, rfl⟩
        rw [hcloses]
        by_cases hs' : s = true
        · simp [hs']
        · simp only [hs', Bool.false_eq_true, if_false, false_or]
          exact Flow.stop_iff
    · right
      obtain ⟨-, hfilter, hstop⟩ := st.unasked (Bool.eq_false_of_not_eq_true hpy)
      rw [if_neg hpy] at h
      have heq := LawfulMonadAttach.eq_of_canReturn_pure h
      simp only [step, hexp, hpass, Bool.false_eq_true, if_false, Bool.not_true, accept, Prod.mk.injEq] at heq
      obtain ⟨⟨rfl, rfl⟩, rfl⟩ := heq
      have hopen : st.closes last fr = false := by simp [closes, hstop]
      refine ⟨hexp, by simp [wanted, hpass, hfilter], rfl, ?_, rfl⟩
      simp only [hopen, Bool.false_eq_true, false_or]
      exact Flow.stop_iff
  · left
    rw [Bool.not_eq_true] at hpass
    have hfast : st.step L link fr = ((false, .Continue), st) := by simp [step, hexp, hpass]
    have hslow : st.step_py L link fr = pure ((false, .Continue), st) := by simp [step_py, hexp, hpass]
    rw [hfast, hslow, ite_self] at h
    obtain ⟨⟨rfl, rfl⟩, rfl⟩ : (false = put ∧ Flow.Continue = flow) ∧ st = st' := by
      simpa using LawfulMonadAttach.eq_of_canReturn_pure h
    exact ⟨hexp, by simp [wanted, hpass], rfl, rfl, rfl⟩

/-- The positions a run adds to those it has. -/
theorem offline_from_keeps {frames : List Frame} {i : ℕ} {keep kept : List ℕ}
    (hans : st.Answer L link shown last) (hroom : st.Room)
    (h : CanReturn (st.offline_from L link frames i keep) kept) :
    kept = keep ++ if st.store then (st.taken L link shown last (frames.zipIdx i)).map Prod.snd else [] := by
  -- By the frames; each one ends the run, is passed by, or is kept.
  induction frames generalizing st i keep with
  | nil =>
    have heq : keep = kept := LawfulMonadAttach.eq_of_canReturn_pure h
    simp [heq]
  | cons fr rest ih =>
    rw [offline_from] at h
    obtain ⟨⟨⟨put, flow⟩, st'⟩, hstep, hnext⟩ := LawfulMonadAttach.canReturn_bind_imp' h
    rw [List.zipIdx_cons]
    rcases step_any_cases hans hstep with ⟨hexp, rfl, rfl, rfl⟩ | ⟨hexp, hnot, rfl, rfl, rfl⟩ |
      ⟨hexp, hwant, rfl, hflow, rfl⟩
    · have heq : keep = kept := LawfulMonadAttach.eq_of_canReturn_pure (by simpa using hnext)
      simp [taken_expired hexp, heq]
    · rw [taken_unwanted hexp hnot]
      exact ih hans hroom (by simpa using hnext)
    · rw [taken_wanted hroom hexp hwant]
      simp only [hflow] at hnext
      -- The frame kept ends the run when it closes it or makes the count full.
      by_cases hstop : st.closes last fr = true ∨ (0 < st.count ∧ st.count ≤ st.kept + 1)
      · rw [if_pos hstop] at hnext ⊢
        have heq := LawfulMonadAttach.eq_of_canReturn_pure hnext
        by_cases hstore : st.store = true
        · simpa [hstore] using heq.symm
        · simpa [hstore] using heq.symm
      · rw [if_neg hstop] at hnext ⊢
        have hrest := ih hans.counted (room_counted (not_or.1 hstop).2) hnext
        by_cases hstore : st.store = true
        · simpa [hstore] using hrest
        · simpa [hstore] using hrest

/-- **What `sniff_offline` keeps**, whatever its callbacks do on the way and whichever path it takes: in
order, each once, the positions of the frames that both filters want, none from the first that came too
late, none after one that closes, and no more than `count`. -/
theorem sniff_offline_keeps {frames : List Frame} {keep : List ℕ} (hans : st.Answer L link shown last)
    (hnew : st.kept = 0) (h : CanReturn (st.sniff_offline L link frames) keep) :
    keep.Pairwise (· < ·) ∧ ∀ i, i ∈ keep ↔ st.store = true ∧ st.Takes L link shown last frames i := by
  have hroom : st.Room := by
    unfold Room
    omega
  have hkeep := offline_from_keeps hans hroom h
  rw [List.nil_append] at hkeep
  by_cases hstore : st.store = true
  · rw [if_pos hstore] at hkeep
    subst hkeep
    constructor
    · have hsub : ((st.taken L link shown last (frames.zipIdx 0)).map Prod.snd).Sublist
          ((frames.zipIdx 0).map Prod.snd) := (taken_sublist _).map Prod.snd
      rw [List.zipIdx_map_snd] at hsub
      exact List.Pairwise.sublist hsub List.pairwise_lt_range'
    · intro i
      simpa [hstore] using mem_taken hroom 0 i
  · rw [if_neg hstore] at hkeep
    simp [hkeep, hstore]

end Run

/-- Two frames that were not empty on the wire, each printed. -/
def two : SniffState (StateM ℕ) (Option PyPkt) where
  count := 2
  store := true
  deadline := some 9
  bpf := some fun data => decide (1 < data.length)
  query := ⟨none, []⟩
  prn := some fun _ => modify (· + 1)
  lfilter := some fun pkt => pure (pkt.any fun p => p.wirelen != 0)
  stop_filter := none
  wrap := none
  kept := 0

/-- The answers of the example. -/
theorem two_answers (L : Layers) (link : ProtoId) : two.Answer L link (fun fr => fr.wirelen != 0) fun _ => false where
  lfilter f hf fr pkt b hpkt hb := by
    obtain rfl : (fun pkt => pure (pkt.any fun p => p.wirelen != 0)) = f := by simpa [two] using hf
    obtain rfl := LawfulMonadAttach.eq_of_canReturn_pure hpkt
    exact (LawfulMonadAttach.eq_of_canReturn_pure hb).symm
  stop_filter f hf := by simp [two] at hf

def four_frames : List Frame :=
  [⟨0, [0, 0], 1, 0, 0⟩, ⟨1, [0, 0], 1, 5, 60⟩, ⟨2, [0, 0, 0], 2, 0, 3⟩, ⟨3, [0, 0], 3, 0, 2⟩]

/-- The last frame would be wanted too; there is no room for it. -/
theorem sniff_offline_keeps_two :
    [1, 2].Pairwise (· < ·) ∧ ∀ i, i ∈ [1, 2] ↔ two.store = true ∧
      two.Takes Layers.core .Ether (fun fr => fr.wirelen != 0) (fun _ => false) four_frames i :=
  sniff_offline_keeps (two_answers Layers.core .Ether) rfl ⟨0, 2, rfl⟩

end SniffState
end Wiry.Sniff
