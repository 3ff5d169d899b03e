/-
The live drivers of `crates/wiry-py/src/live.rs`: `LiveRun`, which reads a handle a slice at a time.

What the handle, the clock and the stop flag do in one pass of the loop of `slice` is a turn of a list;
that the list may end anywhere stands for a capture that is still going on. How long an idle pass
sleeps is left out.
-/
import Wiry.Answers.Exchange
import Wiry.Sniff.State

set_option autoImplicit false

namespace Wiry.Sniff

open Answers (CaptureBuf PacketMeta)
open MonadAttach (CanReturn)
open Packet (Bytes Layers ProtoId)

/-- Two continuations that agree on what a computation can return. -/
theorem bind_congr_canReturn {m : Type → Type} [Monad m] [LawfulMonad m] [MonadAttach m] [LawfulMonadAttach m]
    {α β : Type} {x : m α} {f g : α → m β} (h : ∀ a, CanReturn x a → f a = g a) : x >>= f = x >>= g := by
  rw [← WeaklyLawfulMonadAttach.map_attach (x := x), bind_map_left, bind_map_left]
  exact bind_congr fun a => h a.1 a.2

/-! ## The loop of `slice` -/

/-- What a pass of the loop meets past its polls: the end of the slice, a handle that fails, one with
nothing waiting, or a frame. -/
inductive Met (E : Type) where
  | ended
  | failed (e : E)
  | idle
  | read (head : PacketMeta) (step_now : ℕ) (data : Bytes)

/-- One pass: the flag is seen set, or the deadline is polled at `now`. -/
inductive Turn (E : Type) where
  | stopped
  | polled (now : ℕ) (met : Met E)

/-- How a pass leaves the loop, if it does. -/
inductive Pass (E : Type) where
  | again
  | over (flow : Flow)
  | failed (e : E)

def frame_of (head : PacketMeta) (now : ℕ) (data : Bytes) : Frame :=
  ⟨now, data, head.ts_sec, head.ts_frac, head.origlen⟩

/-- The frames that are read before something else ends the run. -/
def heard {E : Type} (expired : ℕ → Bool) : List (Turn E) → List (Frame × PacketMeta)
  | [] => []
  | .stopped :: _ => []
  | .polled now met :: ts =>
    if expired now then []
    else match met with
      | .ended => heard expired ts
      | .failed _ => []
      | .idle => heard expired ts
      | .read head step_now data => (frame_of head step_now data, head) :: heard expired ts

structure LiveRun (m : Type → Type) (PyObject : Type) where
  st : SniffState m PyObject
  out : CaptureBuf
  link : ProtoId

/-- No step moves the deadline. -/
theorem SniffState.step_any_deadline {m : Type → Type} {PyObject : Type} [Coe PyPkt PyObject] [Monad m]
    [LawfulMonad m] [MonadAttach m] [LawfulMonadAttach m] {st st' : SniffState m PyObject} {L : Layers}
    {link : ProtoId} {fr : Frame} {r : Bool × Flow} (h : CanReturn (st.step_any L link fr) (r, st')) :
    st'.deadline = st.deadline := by
  -- What is pure returns the very state it is given.
  have hpure : ∀ {x : (Bool × Flow) × SniffState m PyObject}, x.2.deadline = st.deadline →
      CanReturn (pure x : m _) (r, st') → st'.deadline = st.deadline := fun {x} hx hret => by
    have heq : x = (r, st') := LawfulMonadAttach.eq_of_canReturn_pure hret
    rw [← hx, heq]
  unfold step_any at h
  -- The two paths in turn: with callbacks and without.
  by_cases hpy : st.needs_python = true
  · rw [if_pos hpy, step_py] at h
    by_cases hexp : st.expired fr.now = true
    · exact hpure rfl (by simpa [hexp] using h)
    by_cases hpass : st.passes L link fr.data = true
    · simp only [hexp, hpass, Bool.false_eq_true, if_false, Bool.not_true] at h
      obtain ⟨pkt, -, h⟩ := LawfulMonadAttach.canReturn_bind_imp' h
      obtain ⟨b, -, h⟩ := LawfulMonadAttach.canReturn_bind_imp' h
      by_cases hb : b = true
      · simp only [hb, Bool.not_true, Bool.false_eq_true, if_false] at h
        obtain ⟨-, -, h⟩ := LawfulMonadAttach.canReturn_bind_imp' h
        obtain ⟨s, -, h⟩ := LawfulMonadAttach.canReturn_bind_imp' h
        exact hpure rfl h
      · exact hpure rfl (by simpa [hb] using h)
    · exact hpure rfl (by simpa [hexp, hpass] using h)
  · rw [if_neg hpy] at h
    refine hpure ?_ h
    unfold step
    by_cases hexp : st.expired fr.now = true
    · simp [hexp]
    by_cases hpass : st.passes L link fr.data = true
    · simp [hexp, hpass, accept, counted]
    · simp [hexp, hpass]

namespace LiveRun

section Drivers

variable {m : Type → Type} {PyObject E : Type} [Coe PyPkt PyObject] [Monad m]
variable (L : Layers) (until_ : Bool)

/-- What the loop does with a frame. -/
def take (run : LiveRun m PyObject) (head : PacketMeta) (fr : Frame) : m (Pass E × LiveRun m PyObject) := do
  let ((store, flow), st) ← run.st.step_any L run.link fr
  let run := { run with st, out := if store then run.out.push head fr.data else run.out }
  pure (if flow = .Stop then .over .Stop else .again, run)

/-- What the loop does past its polls; `until_` is whether the slice has an end. -/
def meets (run : LiveRun m PyObject) : Met E → m (Pass E × LiveRun m PyObject)
  | .ended => pure (if until_ then .over .Continue else .again, run)
  | .failed e => pure (.failed e, run)
  | .idle => pure (.again, run)
  | .read head step_now data => run.take L head (frame_of head step_now data)

def turn (run : LiveRun m PyObject) : Turn E → m (Pass E × LiveRun m PyObject)
  | .stopped => pure (.over .Stop, run)
  | .polled now met => if run.st.tick now = .Stop then pure (.over .Stop, run) else run.meets L until_ met

/-- One bounded slice, and the turns it left. -/
def slice : List (Turn E) → LiveRun m PyObject → m (Pass E × List (Turn E) × LiveRun m PyObject)
  | [], run => pure (.again, [], run)
  | t :: ts, run => do
    let (p, run) ← run.turn L until_ t
    match p with
    | .again => slice ts run
    | p => pure (p, ts, run)

/-- The background thread's driver: one slice without an end. -/
def run_detached (turns : List (Turn E)) (run : LiveRun m PyObject) :
    m (Pass E × List (Turn E) × LiveRun m PyObject) := run.slice L false turns

/-- Slice after slice, with Python's signals checked behind each. -/
def run_sync (check_signals : m Unit) : List (Turn E) → LiveRun m PyObject → m (Pass E × LiveRun m PyObject)
  | [], run => pure (.again, run)
  | t :: ts, run => do
    let (p, run) ← run.turn L true t
    match p with
    | .again => run_sync check_signals ts run
    | .over .Continue => do
      check_signals
      run_sync check_signals ts run
    | .over .Stop => do
      check_signals
      pure (.over .Stop, run)
    | .failed e => pure (.failed e, run)

variable {L until_}

/-- `run_sync` takes a slice, checks for signals, and takes another unless the run is over. -/
theorem run_sync_eq [LawfulMonad m] (check_signals : m Unit) (turns : List (Turn E)) (run : LiveRun m PyObject) :
    run.run_sync L check_signals turns = (do
      let (p, rest, run) ← run.slice L true turns
      match p with
      | .again => pure (.again, run)
      | .over flow => do
        check_signals
        if flow = .Stop then pure (.over .Stop, run) else run.run_sync L check_signals rest
      | .failed e => pure (.failed e, run)) := by
  induction turns generalizing run with
  | nil => simp [run_sync, slice]
  | cons t ts ih =>
    rw [run_sync, slice, bind_assoc]
    apply bind_congr
    rintro ⟨p, next⟩
    rcases p with - | flow | e
    · exact ih next
    · rcases flow with - | -
      · simp
      · simp
    · simp

/-! ## The live drivers and the offline one -/

/-- A loop that reads turn after turn, past the end of any slice, and has a capture to show for it. -/
structure Reads (L : Layers) (until_ : Bool) (loop : List (Turn E) → LiveRun m PyObject → m CaptureBuf) : Prop where
  nil : ∀ run, loop [] run = pure run.out
  cons : ∀ t ts run, loop (t :: ts) run = run.turn L until_ t >>= fun r =>
    match r.1 with
    | .again => loop ts r.2
    | .over .Continue => loop ts r.2
    | _ => pure r.2.out

/-- The synchronous driver reads the turns up to the stop. -/
theorem reads_sync [LawfulMonad m] : Reads L true fun (turns : List (Turn E)) (run : LiveRun m PyObject) =>
    (fun r => r.2.out) <$> run.run_sync L (pure ()) turns where
  nil run := by simp [run_sync]
  cons t ts run := by
    simp only [run_sync, map_bind]
    refine bind_congr ?_
    rintro ⟨p, next⟩
    rcases p with - | (- | -) | -
    · rfl
    · simp
    · simp
    · simp

end Drivers

section Offline

variable {m : Type → Type} {PyObject E : Type} [Coe PyPkt PyObject] [Monad m] [LawfulMonad m] [MonadAttach m]
  [LawfulMonadAttach m]
variable {L : Layers}

/-- A capture behind which the frames at these positions of `all` were recorded. -/
def recorded (out : CaptureBuf) (all : List (Frame × PacketMeta)) (keep : List ℕ) : CaptureBuf :=
  (keep.filterMap (all[·]?)).foldl (fun out x => out.push x.2 x.1.data) out

/-- One more frame is recorded. -/
theorem recorded_concat {out : CaptureBuf} {all before rest : List (Frame × PacketMeta)} {x : Frame × PacketMeta}
    (hall : all = before ++ x :: rest) (keep : List ℕ) :
    recorded out all (keep ++ [before.length]) = (recorded out all keep).push x.2 x.1.data := by
  have hat : all[before.length]? = some x := by simp [hall]
  simp [recorded, hat]

/-- What a frame does, seen from the loop of `sniff_offline`. -/
theorem take_as_offline {out : CaptureBuf} {all before rest : List (Frame × PacketMeta)} {head : PacketMeta}
    {fr : Frame} {run : LiveRun m PyObject} {keep : List ℕ} (hall : all = before ++ (fr, head) :: rest)
    (hout : run.out = recorded out all keep)
    (next : LiveRun m PyObject → m CaptureBuf)
    (hnext : ∀ (st : SniffState m PyObject) keep, st.deadline = run.st.deadline →
      next ⟨st, recorded out all keep, run.link⟩ =
        recorded out all <$> st.offline_from L run.link (rest.map Prod.fst) (before.length + 1) keep) :
    (run.take L head fr >>= fun (r : Pass E × LiveRun m PyObject) =>
      match r.1 with
      | .again => next r.2
      | .over .Continue => next r.2
      | _ => pure r.2.out) =
    recorded out all <$> run.st.offline_from L run.link (fr :: rest.map Prod.fst) before.length keep := by
  rw [take, SniffState.offline_from, bind_assoc, map_bind]
  refine bind_congr_canReturn ?_
  rintro ⟨⟨put, flow⟩, st⟩ hret
  -- What is kept is what `push` records at the frame's own number.
  have hkeep : (if put then run.out.push head fr.data else run.out) =
      recorded out all (if put then keep ++ [before.length] else keep) := by
    by_cases hput : put = true
    · simp only [hput, if_true, recorded_concat hall, hout]
    · simp only [hput, Bool.false_eq_true, if_false, hout]
  -- A stop ends both; otherwise both go on with the same state.
  by_cases hflow : flow = .Stop
  · simp [hflow, hkeep]
  · simp only [hflow, if_false, pure_bind, hkeep]
    exact hnext st _ (SniffState.step_any_deadline hret)

/-- A driver that reads turns records what the offline run records of the frames heard, from any
point of the run. -/
theorem Reads.as_offline {until_ : Bool} {loop : List (Turn E) → LiveRun m PyObject → m CaptureBuf}
    (hloop : Reads L until_ loop) {out : CaptureBuf} {all before : List (Frame × PacketMeta)}
    (turns : List (Turn E)) {run : LiveRun m PyObject} {keep : List ℕ}
    (hall : all = before ++ heard run.st.expired turns) (hout : run.out = recorded out all keep) :
    loop turns run = recorded out all <$>
      run.st.offline_from L run.link ((heard run.st.expired turns).map Prod.fst) before.length keep := by
  induction turns generalizing run before keep with
  | nil => simp [hloop.nil, heard, SniffState.offline_from, hout]
  | cons t ts ih =>
    rw [hloop.cons]
    rcases t with - | ⟨now, met⟩
    · simp [turn, heard, SniffState.offline_from, hout]
    by_cases hexp : run.st.expired now = true
    · simp [turn, SniffState.tick, heard, hexp, SniffState.offline_from, hout]
    simp only [heard, turn, SniffState.tick, hexp, Bool.false_eq_true, if_false, reduceCtorEq] at hall ⊢
    cases met with
    | ended =>
      rw [← ih hall hout]
      cases until_ with
      | true => simp [meets]
      | false => simp [meets]
    | failed e => simp [meets, SniffState.offline_from, hout]
    | idle =>
      rw [← ih hall hout]
      simp [meets]
    | read head step_now data =>
      refine take_as_offline hall hout (loop ts) fun st keep hst => ?_
      -- the deadline being the same, so are the frames still to be heard
      have hexpired : st.expired = run.st.expired := by
        funext now
        simp only [SniffState.expired, hst]
      have hrest : all = (before ++ [(frame_of head step_now data, head)]) ++ heard st.expired ts := by
        rw [hexpired, hall, List.append_assoc, List.singleton_append]
      have hnext : loop ts ⟨st, recorded out all keep, run.link⟩ = recorded out all <$>
          st.offline_from L run.link ((heard st.expired ts).map Prod.fst)
            (before ++ [(frame_of head step_now data, head)]).length keep := ih hrest rfl
      rw [List.length_append, List.length_singleton, hexpired] at hnext
      exact hnext

omit [Coe PyPkt PyObject] in
theorem of_canReturn_pure {p q : Pass E} {run next : LiveRun m PyObject}
    (h : CanReturn (pure (q, next) : m _) (p, run)) : q = p ∧ next = run :=
  Prod.mk.inj (LawfulMonadAttach.eq_of_canReturn_pure h)

/-- No pass of a slice without an end comes to its end. -/
theorem turn_endless {t : Turn E} {p : Pass E} {run run' : LiveRun m PyObject}
    (h : CanReturn (run.turn L false t) (p, run')) : p ≠ .over .Continue := by
  rintro rfl
  rcases t with - | ⟨now, met⟩
  · cases (of_canReturn_pure h).1
  by_cases hnow : run.st.tick now = .Stop
  · rw [turn, if_pos hnow] at h
    cases (of_canReturn_pure h).1
  rw [turn, if_neg hnow] at h
  cases met with
  | ended => cases (of_canReturn_pure h).1
  | failed e => cases (of_canReturn_pure h).1
  | idle => cases (of_canReturn_pure h).1
  | read head step_now data =>
    obtain ⟨⟨⟨put, flow⟩, st⟩, -, h⟩ := LawfulMonadAttach.canReturn_bind_imp' h
    by_cases hflow : flow = .Stop
    · simp only [hflow, if_true] at h
      cases (of_canReturn_pure h).1
    · simp only [hflow, if_false] at h
      cases (of_canReturn_pure h).1

/-- The detached driver reads them too, without the stop. -/
theorem reads_detached : Reads L false fun (turns : List (Turn E)) (run : LiveRun m PyObject) =>
    (fun r => r.2.2.out) <$> run.run_detached L turns where
  nil run := by simp [run_detached, slice]
  cons t ts run := by
    simp only [run_detached, slice, map_bind]
    refine bind_congr_canReturn ?_
    rintro ⟨p, next⟩ hret
    rcases p with - | (- | -) | -
    · rfl
    · exact absurd rfl (turn_endless hret)
    · simp
    · simp

/-- **A live driver keeps what the offline one does**: with callbacks that raise or keep state as they
please, the foreground's slices and the background's single one record, behind what the capture holds,
the frames at the positions that `sniff_offline` keeps of those that were read. -/
theorem live_as_offline (run : LiveRun m PyObject) (turns : List (Turn E)) :
    let all := heard run.st.expired turns
    let offline := recorded run.out all <$> run.st.sniff_offline L run.link (all.map Prod.fst)
    (fun r => r.2.out) <$> run.run_sync L (pure ()) turns = offline ∧
      (fun r => r.2.2.out) <$> run.run_detached L turns = offline :=
  ⟨reads_sync.as_offline turns (List.nil_append _).symm rfl,
    reads_detached.as_offline turns (List.nil_append _).symm rfl⟩

end Offline

/-- Two slices, a wait, and three frames of which the second and the third are kept. -/
def three_read : List (Turn String) :=
  [.polled 0 (.read ⟨1, 0, 2, 0⟩ 0 [0, 0]), .polled 1 .idle, .polled 1 (.read ⟨1, 5, 2, 60⟩ 1 [0, 0]), .polled 2 .ended,
    .polled 3 (.read ⟨2, 0, 3, 3⟩ 4 [0, 0, 0]), .polled 5 (.failed "gone")]

theorem live_as_offline_three :
    let run : LiveRun (StateM ℕ) (Option PyPkt) := ⟨SniffState.two, .new 1 262144, .Ether⟩
    let all := heard run.st.expired three_read
    let offline := recorded run.out all <$> run.st.sniff_offline Layers.core run.link (all.map Prod.fst)
    (fun r => r.2.out) <$> run.run_sync Layers.core (pure ()) three_read = offline ∧
      (fun r => r.2.2.out) <$> run.run_detached Layers.core three_read = offline :=
  live_as_offline _ three_read

end LiveRun
end Wiry.Sniff
