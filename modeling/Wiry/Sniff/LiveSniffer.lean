/-
`LiveSniffer` of `crates/wiry-py/src/live.rs`: a capture on a thread of its own, and the calls its owner
makes meanwhile.

The owner's calls and the passes of the thread come in any order. A call that waits takes effect when
its wait is over, and what Python's other threads do to the callbacks' state between two passes is left
open. The object's destructor is left out: it sets the flag, waits the thread out and drops its capture.
-/
import Wiry.Sniff.Live

set_option autoImplicit false

namespace Wiry.Sniff

open Answers (CaptureBuf PacketMeta)
open MonadAttach (CanReturn)
open Packet (Bytes Layers ProtoId)

/-! ## What a run of the thread records -/

namespace LiveRun

variable {m : Type → Type} {PyObject E : Type} [Coe PyPkt PyObject] [Monad m] [MonadAttach m]

/-- The passes of one slice without an end; between two of them the callbacks' state may be another's. -/
inductive Passes (L : Layers) : LiveRun m PyObject → List (Turn E) → Pass E → LiveRun m PyObject → Prop where
  | nil {run : LiveRun m PyObject} : Passes L run [] .again run
  | again {run mid run' : LiveRun m PyObject} {t : Turn E} {ts : List (Turn E)} {p : Pass E}
      (h : CanReturn (run.turn L false t) (.again, mid)) (hrest : Passes L mid ts p run') :
      Passes L run (t :: ts) p run'
  | last {run run' : LiveRun m PyObject} {t : Turn E} {p : Pass E}
      (h : CanReturn (run.turn L false t) (p, run')) (hleaves : p ≠ .again) : Passes L run [t] p run'

/-- One more pass that did not end the run. -/
theorem Passes.concat {L : Layers} {run mid run' : LiveRun m PyObject} {ts : List (Turn E)} {t : Turn E}
    {p : Pass E} (hbefore : Passes L run ts .again mid) (h : CanReturn (mid.turn L false t) (p, run')) :
    Passes L run (ts ++ [t]) p run' := by
  generalize hq : (Pass.again : Pass E) = q at hbefore
  induction hbefore with
  | nil =>
    by_cases hp : p = .again
    · subst hp
      exact .again h .nil
    · exact .last h hp
  | again hfirst _ ih => exact .again hfirst (ih h hq)
  | last _ hleaves => exact absurd hq.symm hleaves

end LiveRun

def clocks {E : Type} : List (Turn E) → List ℕ
  | [] => []
  | .stopped :: ts => clocks ts
  | .polled now (.read _ step_now _) :: ts => now :: step_now :: clocks ts
  | .polled now _ :: ts => now :: clocks ts

namespace SniffState

variable {m : Type → Type} {PyObject E : Type}
variable (st : SniffState m PyObject) (L : Layers) (link : ProtoId) (shown last : Frame → Bool)

/-- What these turns leave in a capture. -/
def captured (out : CaptureBuf) (turns : List (Turn E)) : CaptureBuf :=
  (if st.store then st.taken L link shown last (heard st.expired turns) else []).foldl
    (fun out x => out.push x.2 x.1.data) out

/-- These turns end a sniffer's run without the stop flag: its time was up, its count was reached, or a
frame it took closed it. -/
def Over (turns : List (Turn E)) : Prop :=
  let taken := st.taken L link shown last (heard st.expired turns)
  (∃ now ∈ clocks turns, st.expired now = true) ∨ (0 < st.count ∧ st.count ≤ st.kept + taken.length) ∨
    ∃ x ∈ taken, st.closes last x.1 = true

/-- A pass that reads nothing adds nothing to what the later ones do. -/
theorem unread {now : ℕ} {met : Met E} (hmet : met = .ended ∨ met = .idle) (hnow : st.expired now = false)
    (out : CaptureBuf) (ts : List (Turn E)) :
    st.captured L link shown last out ts = st.captured L link shown last out (.polled now met :: ts) ∧
      (st.Over L link shown last ts → st.Over L link shown last (.polled now met :: ts)) := by
  have hheard : heard st.expired (.polled now met :: ts) = heard st.expired ts := by
    rcases hmet with rfl | rfl <;> simp [heard, hnow]
  have hclocks : clocks (.polled now met :: ts) = now :: clocks ts := by
    rcases hmet with rfl | rfl <;> rfl
  refine ⟨by rw [captured, captured, hheard], ?_⟩
  simp only [Over, hheard, hclocks]
  rintro (⟨c, hc, hexp⟩ | htaken)
  · exact .inl ⟨c, List.mem_cons_of_mem _ hc, hexp⟩
  · exact .inr htaken

end SniffState

namespace LiveRun

variable {m : Type → Type} {PyObject E : Type} [Coe PyPkt PyObject] [Monad m] [LawfulMonad m] [MonadAttach m]
  [LawfulMonadAttach m]
variable {L : Layers} {shown last : Frame → Bool}

/-- Everything that a pass over a frame can do. -/
theorem take_cases {run run' : LiveRun m PyObject} {head : PacketMeta} {fr : Frame} {p : Pass E}
    (hans : run.st.Answer L run.link shown last) (h : CanReturn (run.take L head fr) (p, run')) :
    (run.st.expired fr.now = true ∧ p = .over .Stop ∧ run' = run) ∨
    (run.st.expired fr.now = false ∧ run.st.wanted L run.link shown fr = false ∧ p = .again ∧ run' = run) ∨
    (run.st.expired fr.now = false ∧ run.st.wanted L run.link shown fr = true ∧
      p = (if run.st.closes last fr = true ∨ (0 < run.st.count ∧ run.st.count ≤ run.st.kept + 1) then .over .Stop
        else .again) ∧
      run' = ⟨run.st.counted, if run.st.store then run.out.push head fr.data else run.out, run.link⟩) := by
  obtain ⟨⟨⟨put, flow⟩, st⟩, hstep, hret⟩ := LawfulMonadAttach.canReturn_bind_imp' h
  obtain ⟨rfl, rfl⟩ := Prod.mk.inj (LawfulMonadAttach.eq_of_canReturn_pure hret)
  rcases SniffState.step_any_cases hans hstep with ⟨hexp, rfl, rfl, rfl⟩ | ⟨hexp, hnot, rfl, rfl, rfl⟩ |
    ⟨hexp, hwant, rfl, hflow, rfl⟩
  · exact .inl ⟨hexp, rfl, rfl⟩
  · exact .inr (.inl ⟨hexp, hnot, rfl, rfl⟩)
  · exact .inr (.inr ⟨hexp, hwant, by simp only [hflow], rfl⟩)

/-- A pass that stays in the loop leaves the rest of the run to do what it would have done. -/
theorem turn_again {run mid : LiveRun m PyObject} {t : Turn E} (hans : run.st.Answer L run.link shown last)
    (hroom : run.st.Room) (h : CanReturn (run.turn L false t) (.again, mid)) :
    mid.link = run.link ∧ mid.st.Answer L run.link shown last ∧ mid.st.Room ∧ ∀ ts : List (Turn E),
      mid.st.captured L run.link shown last mid.out ts = run.st.captured L run.link shown last run.out (t :: ts) ∧
      (mid.st.Over L run.link shown last ts → run.st.Over L run.link shown last (t :: ts)) := by
  rcases t with - | ⟨now, met⟩
  · cases (of_canReturn_pure h).1
  by_cases hnow : run.st.expired now = true
  · simp only [turn, SniffState.tick, hnow, if_true] at h
    cases (of_canReturn_pure h).1
  simp only [turn, SniffState.tick, hnow, Bool.false_eq_true, if_false, reduceCtorEq] at h
  rw [Bool.not_eq_true] at hnow
  cases met with
  | ended =>
    obtain rfl := (of_canReturn_pure h).2
    exact ⟨rfl, hans, hroom, run.st.unread L run.link shown last (.inl rfl) hnow run.out⟩
  | failed e => cases (of_canReturn_pure h).1
  | idle =>
    obtain rfl := (of_canReturn_pure h).2
    exact ⟨rfl, hans, hroom, run.st.unread L run.link shown last (.inr rfl) hnow run.out⟩
  | read head step_now data =>
    have hheard : ∀ ts : List (Turn E), heard run.st.expired (.polled now (.read head step_now data) :: ts) =
        (frame_of head step_now data, head) :: heard run.st.expired ts := fun ts => by
      simp [heard, hnow]
    have hclock : ∀ ts : List (Turn E), (∃ c ∈ clocks ts, run.st.expired c = true) →
        ∃ c ∈ clocks (.polled now (.read head step_now data) :: ts), run.st.expired c = true := by
      rintro ts ⟨c, hc, hexp⟩
      exact ⟨c, List.mem_cons_of_mem _ (List.mem_cons_of_mem _ hc), hexp⟩
    rcases take_cases hans h with ⟨-, hp, -⟩ | ⟨hexp, hnot, -, rfl⟩ | ⟨hexp, hwant, hp, rfl⟩
    · cases hp
    -- a frame no filter wants: only the clock moved
    · refine ⟨rfl, hans, hroom, fun ts => ⟨?_, ?_⟩⟩
      · rw [SniffState.captured, SniffState.captured, hheard, SniffState.taken_unwanted hexp hnot]
      · unfold SniffState.Over
        rw [hheard, SniffState.taken_unwanted hexp hnot]
        exact Or.imp (hclock ts) id
    · have hgoes : ¬(run.st.closes last (frame_of head step_now data) = true ∨
          (0 < run.st.count ∧ run.st.count ≤ run.st.kept + 1)) := fun hstop => by
        rw [if_pos hstop] at hp
        cases hp
      refine ⟨rfl, hans.counted, SniffState.room_counted (not_or.1 hgoes).2, fun ts => ⟨?_, ?_⟩⟩
      · have hexpired : run.st.counted.expired = run.st.expired := rfl
        by_cases hstore : run.st.store = true
        · simp only [SniffState.captured, hheard, SniffState.taken_wanted hroom hexp hwant, if_neg hgoes,
            SniffState.counted_store, hstore, if_true, List.foldl_cons, hexpired]
        · simp [SniffState.captured, hstore]
      · simp only [SniffState.Over, hheard, SniffState.taken_wanted hroom hexp hwant, if_neg hgoes]
        rintro (hover | ⟨hcount, hfull⟩ | ⟨x, hx, hcloses⟩)
        · exact .inl (hclock ts hover)
        · refine .inr (.inl ⟨hcount, ?_⟩)
          have hcounted : run.st.count ≤ run.st.kept + 1 +
              (run.st.counted.taken L run.link shown last (heard run.st.expired ts)).length := hfull
          rw [List.length_cons]
          omega
        · exact .inr (.inr ⟨x, List.mem_cons_of_mem _ hx, hcloses⟩)

/-- A pass that leaves the loop for good. -/
theorem turn_stops {run run' : LiveRun m PyObject} {t : Turn E} (hans : run.st.Answer L run.link shown last)
    (hroom : run.st.Room) (h : CanReturn (run.turn L false t) (.over .Stop, run')) :
    run'.out = run.st.captured L run.link shown last run.out [t] ∧
      (t = .stopped ∨ run.st.Over L run.link shown last [t]) := by
  -- The turn is the stop, or a poll at some time.
  rcases t with - | ⟨now, met⟩
  · obtain rfl := (of_canReturn_pure h).2
    exact ⟨by simp [SniffState.captured, heard], .inl rfl⟩
  by_cases hnow : run.st.expired now = true
  · simp only [turn, SniffState.tick, hnow, if_true] at h
    obtain rfl := (of_canReturn_pure h).2
    refine ⟨by simp [SniffState.captured, heard, hnow], .inr (.inl ⟨now, ?_, hnow⟩)⟩
    cases met with
    | read => simp [clocks]
    | _ => simp [clocks]
  simp only [turn, SniffState.tick, hnow, Bool.false_eq_true, if_false, reduceCtorEq] at h
  rw [Bool.not_eq_true] at hnow
  -- Only a frame that is read can end the capture here; the other polls go on.
  cases met with
  | ended => cases (of_canReturn_pure h).1
  | failed e => cases (of_canReturn_pure h).1
  | idle => cases (of_canReturn_pure h).1
  | read head step_now data =>
    have hheard : heard run.st.expired [.polled now (.read head step_now data : Met E)] =
        [(frame_of head step_now data, head)] := by
      simp [heard, hnow]
    rcases take_cases hans h with ⟨hexp, -, rfl⟩ | ⟨-, -, hp, -⟩ | ⟨hexp, hwant, hp, rfl⟩
    · refine ⟨by simp [SniffState.captured, hheard, SniffState.taken_expired hexp], .inr (.inl ⟨step_now, ?_, hexp⟩)⟩
      simp [clocks]
    · cases hp
    -- The frame was kept, and it closed the capture or was the last that was asked for.
    · have hstop : run.st.closes last (frame_of head step_now data) = true ∨
          (0 < run.st.count ∧ run.st.count ≤ run.st.kept + 1) := by
        by_contra hgoes
        rw [if_neg hgoes] at hp
        cases hp
      have htaken : run.st.taken L run.link shown last (heard run.st.expired
          [.polled now (.read head step_now data : Met E)]) = [(frame_of head step_now data, head)] := by
        rw [hheard, SniffState.taken_wanted hroom hexp hwant, if_pos hstop]
      constructor
      · by_cases hstore : run.st.store = true
        · simp [SniffState.captured, htaken, hstore]
        · simp [SniffState.captured, hstore]
      · right
        simp only [SniffState.Over, htaken]
        exact .inr (hstop.elim (fun hcloses => .inr ⟨_, List.mem_singleton_self _, hcloses⟩) .inl)

/-- **What a run of the thread leaves**, once the loop is left without an exception. -/
theorem Passes.captured {run run' : LiveRun m PyObject} {ts : List (Turn E)} {p : Pass E}
    (h : Passes L run ts p run') (hp : p = .over .Stop) (hans : run.st.Answer L run.link shown last)
    (hroom : run.st.Room) :
    run'.out = run.st.captured L run.link shown last run.out ts ∧
      (.stopped ∈ ts ∨ run.st.Over L run.link shown last ts) := by
  induction h with
  | nil => cases hp
  | again hfirst _ ih =>
    obtain ⟨hlink, hans', hroom', hrest⟩ := turn_again hans hroom hfirst
    rw [← hlink] at hans'
    obtain ⟨hout, hwhy⟩ := ih hp hans' hroom'
    rw [hlink] at hout hwhy
    exact ⟨hout.trans (hrest _).1, hwhy.imp (List.mem_cons_of_mem _) (hrest _).2⟩
  | last hlast =>
    rw [hp] at hlast
    obtain ⟨hout, hwhy⟩ := turn_stops hans hroom hlast
    exact ⟨hout, hwhy.imp (by rintro rfl; exact List.mem_singleton_self _) id⟩

end LiveRun

/-! ## The object and its owner -/

inductive Failure (E : Type) where
  | already_running
  | restarted
  | raised (e : E)
  | panicked

/-- The capture thread: in its loop, or with a result that was not collected yet. `Done` says that it is
`gone`, and so does `is_finished`. -/
inductive Thread (m : Type → Type) (PyObject E : Type) where
  | running (run : LiveRun m PyObject)
  | leaving (r : Except (Failure E) CaptureBuf)
  | gone (r : Except (Failure E) CaptureBuf)

structure LiveSniffer (m : Type → Type) (PyObject E : Type) where
  /-- What to capture with: taken by `start`. -/
  pending : Option (UInt32 × SniffState m PyObject)
  stop : Bool
  thread : Option (Thread m PyObject E)
  results : Option CaptureBuf

/-- What the owner calls, with what it gets, and what the thread does. -/
inductive Event (E : Type) where
  /-- `start`; a handle that opens has a link type, and the clock sets the deadline. -/
  | start (r : Except (Failure E) (UInt32 × Option ℕ))
  /-- The store that every `stop` begins with. -/
  | stop
  /-- What a `join`, a `stop` or a read of `results` gives back. -/
  | returned (r : Except (Failure E) (Option CaptureBuf))
  | turn (t : Turn E)
  /-- A callback raises, or the thread panics, in the middle of a pass. -/
  | broken (e : Failure E)
  | finished

namespace LiveSniffer

variable {m : Type → Type} {PyObject E : Type}

def new (snaplen : UInt32) (st : SniffState m PyObject) : LiveSniffer m PyObject E :=
  ⟨some (snaplen, st), false, none, none⟩

/-- The run that `start` hands its thread; the timeout runs from here. -/
def spawned (link_to_proto : UInt32 → ProtoId) (snaplen : UInt32) (st : SniffState m PyObject) (dlt : UInt32)
    (deadline : Option ℕ) : LiveRun m PyObject :=
  ⟨{ st with deadline }, .new dlt snaplen, link_to_proto dlt⟩

/-- `start`, given what `open_live` returns and where the clock puts the deadline. -/
def start (link_to_proto : UInt32 → ProtoId) (open_live : Except E UInt32) (deadline : Option ℕ)
    (s : LiveSniffer m PyObject E) : Except (Failure E) (UInt32 × Option ℕ) × LiveSniffer m PyObject E :=
  if s.thread.isSome then (.error .already_running, s)
  else match s.pending with
    | none => (.error .restarted, s)
    | some (snaplen, st) =>
      match open_live with
      | .error e => (.error (.raised e), s)
      | .ok dlt =>
        -- a stop before the start does not end the run on its first read
        (.ok (dlt, deadline), { s with
          pending := none, stop := false,
          thread := some (.running (spawned link_to_proto snaplen st dlt deadline)) })

/-- Collects a thread that is gone; a call that waits for it does so first. -/
def reap (r : Except (Failure E) CaptureBuf) (s : LiveSniffer m PyObject E) :
    Except (Failure E) (Option CaptureBuf) × LiveSniffer m PyObject E :=
  match r with
  | .ok c => (.ok (some c), { s with thread := none, results := some c })
  | .error e => (.error e, { s with thread := none })

/-- The thread behind a pass: still in its loop, or leaving it. -/
def after (run : LiveRun m PyObject) : Pass E → Thread m PyObject E
  | .again => .running run
  | .over _ => .leaving (.ok run.out)
  | .failed e => .leaving (.error (.raised e))

section Calls

variable {link_to_proto : UInt32 → ProtoId} {s next : LiveSniffer m PyObject E}

/-- A start that succeeds is a waiting sniffer's; any other leaves the sniffer as it is. -/
theorem start_cases {open_live : Except E UInt32} {deadline : Option ℕ}
    {r : Except (Failure E) (UInt32 × Option ℕ)} (h : s.start link_to_proto open_live deadline = (r, next)) :
    (next = s ∧ ∀ x, r ≠ .ok x) ∨
    ∃ snaplen st dlt, s.pending = some (snaplen, st) ∧ s.thread = none ∧ r = .ok (dlt, deadline) ∧
      next = { s with
        pending := none, stop := false,
        thread := some (.running (spawned link_to_proto snaplen st dlt deadline)) } := by
  unfold start at h
  -- It refuses if it is running, if it has nothing to run, or if the handle does not open.
  by_cases hthread : s.thread.isSome = true
  · rw [if_pos hthread] at h
    obtain ⟨rfl, rfl⟩ := Prod.mk.inj h
    exact .inl ⟨rfl, fun x => by simp⟩
  rw [if_neg hthread] at h
  rcases hpending : s.pending with - | ⟨snaplen, st⟩
  · simp only [hpending] at h
    obtain ⟨rfl, rfl⟩ := Prod.mk.inj h
    exact .inl ⟨rfl, fun x => by simp⟩
  rcases open_live with f | dlt
  · simp only [hpending] at h
    obtain ⟨rfl, rfl⟩ := Prod.mk.inj h
    exact .inl ⟨rfl, fun x => by simp⟩
  · simp only [hpending] at h
    obtain ⟨rfl, rfl⟩ := Prod.mk.inj h
    exact .inr ⟨snaplen, st, dlt, rfl, by simpa using hthread, rfl, rfl⟩

theorem reap_frame {r : Except (Failure E) CaptureBuf} {got : Except (Failure E) (Option CaptureBuf)}
    (h : s.reap r = (got, next)) : next.stop = s.stop ∧ next.pending = s.pending := by
  rcases r with f | c
  · obtain ⟨-, rfl⟩ := Prod.mk.inj h
    exact ⟨rfl, rfl⟩
  · obtain ⟨-, rfl⟩ := Prod.mk.inj h
    exact ⟨rfl, rfl⟩

end Calls

section Steps

variable [Coe PyPkt PyObject] [Monad m] [MonadAttach m] (L : Layers) (link_to_proto : UInt32 → ProtoId)

inductive Step : LiveSniffer m PyObject E → Event E → LiveSniffer m PyObject E → Prop where
  | start {s s' : LiveSniffer m PyObject E} {open_live : Except E UInt32} {deadline : Option ℕ}
      {r : Except (Failure E) (UInt32 × Option ℕ)} (h : s.start link_to_proto open_live deadline = (r, s')) :
      Step s (.start r) s'
  | stop {s : LiveSniffer m PyObject E} : Step s .stop { s with stop := true }
  /-- A call that need not wait, or whose wait ran out. -/
  | stored {s : LiveSniffer m PyObject E} : Step s (.returned (.ok s.results)) s
  | reaped {s s' : LiveSniffer m PyObject E} {r : Except (Failure E) CaptureBuf}
      {got : Except (Failure E) (Option CaptureBuf)} (hgone : s.thread = some (.gone r))
      (h : s.reap r = (got, s')) : Step s (.returned got) s'
  /-- The flag may be seen late, never early. -/
  | turn {s : LiveSniffer m PyObject E} {run run' : LiveRun m PyObject} {t : Turn E} {p : Pass E}
      (hrun : s.thread = some (.running run)) (hseen : t = .stopped → s.stop = true)
      (h : CanReturn (run.turn L false t) (p, run')) :
      Step s (.turn t) { s with thread := some (after run' p) }
  | broken {s : LiveSniffer m PyObject E} {run : LiveRun m PyObject} {e : Failure E}
      (hrun : s.thread = some (.running run)) :
      Step s (.broken e) { s with thread := some (.leaving (.error e)) }
  | finished {s : LiveSniffer m PyObject E} {r : Except (Failure E) CaptureBuf}
      (hleaving : s.thread = some (.leaving r)) : Step s .finished { s with thread := some (.gone r) }

/-- What happens to a sniffer, the latest last. -/
inductive Runs (s : LiveSniffer m PyObject E) : List (Event E) → LiveSniffer m PyObject E → Prop where
  | nil : Runs s [] s
  | concat {events : List (Event E)} {now next : LiveSniffer m PyObject E} {e : Event E}
      (hbefore : Runs s events now) (h : Step L link_to_proto now e next) : Runs s (events ++ [e]) next

end Steps

/-! ## Across any interleaving -/

def turn_of : Event E → Option (Turn E)
  | .turn t => some t
  | _ => none

/-- What the thread met, of everything that happened. -/
def turns (events : List (Event E)) : List (Turn E) := events.filterMap turn_of

@[simp] theorem turns_concat (events : List (Event E)) (e : Event E) :
    turns (events ++ [e]) = turns events ++ (turn_of e).toList := by
  cases he : turn_of e with
  | none => simp [turns, he]
  | some t => simp [turns, he]

/-- No call gave anything back. -/
def Silent (events : List (Event E)) : Prop := ∀ r, .returned r ∈ events → r = .ok none

theorem Silent.concat {events : List (Event E)} {e : Event E} (h : Silent events)
    (he : ∀ r, e = .returned r → r = .ok none) : Silent (events ++ [e]) := by
  intro r hr
  rcases List.mem_append.1 hr with hold | hnew
  · exact h r hold
  · exact he r (List.mem_singleton.1 hnew).symm

def Unstarted (events : List (Event E)) : Prop := ∀ x, .start (.ok x) ∉ events

theorem Unstarted.concat {events : List (Event E)} {e : Event E} (h : Unstarted events)
    (he : ∀ x, e ≠ .start (.ok x)) : Unstarted (events ++ [e]) := by
  intro x hx
  rcases List.mem_append.1 hx with hold | hnew
  · exact h x hold
  · exact he x (List.mem_singleton.1 hnew).symm

section Phases

variable [Coe PyPkt PyObject] [Monad m] [MonadAttach m] (L : Layers)

/-- The thread left its loop with this capture. -/
def Left (run : LiveRun m PyObject) (later : List (Event E)) (c : CaptureBuf) : Prop :=
  ∃ run', run.Passes L (turns later) (.over .Stop) run' ∧ c = run'.out

/-- How a sniffer stands, whose thread was given `run`, and what happened since. -/
inductive Since (run : LiveRun m PyObject) (later : List (Event E)) (s : LiveSniffer m PyObject E) : Prop where
  | running (now : LiveRun m PyObject) (hthread : s.thread = some (.running now)) (hresults : s.results = none)
      (hsilent : Silent later) (hpasses : run.Passes L (turns later) .again now)
  | uncollected (r : Except (Failure E) CaptureBuf)
      (hthread : s.thread = some (.leaving r) ∨ s.thread = some (.gone r)) (hresults : s.results = none)
      (hsilent : Silent later) (hleft : ∀ c, r = .ok c → Left L run later c)
  | collected (c : CaptureBuf) (hthread : s.thread = none) (hresults : s.results = some c)
      (hgave : ∀ r, .returned r ∈ later → r = .ok none ∨ r = .ok (some c)) (hleft : Left L run later c)
  | lost (hthread : s.thread = none) (hresults : s.results = none) (earlier latest : List (Event E))
      (e : Failure E) (hlater : later = earlier ++ .returned (.error e) :: latest) (hearlier : Silent earlier)
      (hlatest : Silent latest)

/-- Before the start, or after it. -/
inductive Phase (link_to_proto : UInt32 → ProtoId) (snaplen : UInt32) (st : SniffState m PyObject)
    (events : List (Event E)) (s : LiveSniffer m PyObject E) : Prop where
  | waiting (hpending : s.pending = some (snaplen, st)) (hthread : s.thread = none) (hresults : s.results = none)
      (hsilent : Silent events) (hunstarted : Unstarted events)
  | started (before later : List (Event E)) (dlt : UInt32) (deadline : Option ℕ)
      (hevents : events = before ++ .start (.ok (dlt, deadline)) :: later) (hpending : s.pending = none)
      (hbefore : Silent before) (hunstarted : Unstarted (before ++ later)) (hstop : .stop ∈ later ↔ s.stop = true)
      (hseen : .stopped ∈ turns later → .stop ∈ later)
      (hsince : Since L (spawned link_to_proto snaplen st dlt deadline) later s)

variable {L} {link_to_proto : UInt32 → ProtoId} {snaplen : UInt32} {st : SniffState m PyObject}
variable {events later : List (Event E)} {s next : LiveSniffer m PyObject E} {e : Event E}
variable {run : LiveRun m PyObject}

theorem Left.concat {c : CaptureBuf} (h : Left L run later c) (he : turn_of e = none) :
    Left L run (later ++ [e]) c := by
  simpa [Left, he] using h

/-- What leaves the thread and the capture alone, and gives nothing back that was not there. -/
theorem Since.unmoved (h : Since L run later s) (hthread : next.thread = s.thread)
    (hresults : next.results = s.results) (hturn : turn_of e = none)
    (hret : ∀ r, e = .returned r → r = .ok s.results) : Since L run (later ++ [e]) next := by
  have hquiet : s.results = none → ∀ r, e = .returned r → r = .ok none := fun hnone r hr => hnone ▸ hret r hr
  cases h with
  | running now hrunning hnone hsilent hpasses =>
    exact .running now (hthread.trans hrunning) (hresults.trans hnone) (hsilent.concat (hquiet hnone))
      (by simpa [hturn] using hpasses)
  | uncollected r hleaving hnone hsilent hleft =>
    exact .uncollected r (by rwa [hthread]) (hresults.trans hnone) (hsilent.concat (hquiet hnone))
      fun c hc => (hleft c hc).concat hturn
  | collected c hgone hsome hgave hleft =>
    refine .collected c (hthread.trans hgone) (hresults.trans hsome) (fun r hr => ?_) (hleft.concat hturn)
    rcases List.mem_append.1 hr with hold | hnew
    · exact hgave r hold
    · right
      rw [hret r (List.mem_singleton.1 hnew).symm, hsome]
  | lost hgone hnone earlier latest f hlater hearlier hlatest =>
    exact .lost (hthread.trans hgone) (hresults.trans hnone) earlier (latest ++ [e]) f
      (by rw [hlater, List.append_assoc, List.cons_append]) hearlier (hlatest.concat (hquiet hnone))

/-- Only the loop's own passes move a thread that is running. -/
theorem Since.passed {now run' : LiveRun m PyObject} {t : Turn E} {p : Pass E} (h : Since L run later s)
    (hrun : s.thread = some (.running now)) (hret : CanReturn (now.turn L false t) (p, run'))
    (hthread : next.thread = some (after run' p)) (hresults : next.results = s.results)
    (hendless : p ≠ .over .Continue) : Since L run (later ++ [.turn t]) next := by
  cases h with
  | running now' hrunning hnone hsilent hpasses =>
    obtain rfl : now = now' := by simpa [hrun] using hrunning
    have hpasses' : run.Passes L (turns (later ++ [.turn t])) p run' := by
      simpa [turn_of] using hpasses.concat hret
    have hsilent' : Silent (later ++ [Event.turn t]) := hsilent.concat fun r hr => by cases hr
    rcases p with - | (- | -) | f
    · exact .running run' hthread (hresults.trans hnone) hsilent' hpasses'
    · exact absurd rfl hendless
    · refine .uncollected _ (.inl hthread) (hresults.trans hnone) hsilent' fun c hc => ⟨run', hpasses', ?_⟩
      exact (Except.ok.inj hc).symm
    · exact .uncollected _ (.inl hthread) (hresults.trans hnone) hsilent' fun c hc => by cases hc
  | uncollected r hleaving => rcases hleaving with h | h <;> simp [hrun] at h
  | collected c hgone => simp [hrun] at hgone
  | lost hgone => simp [hrun] at hgone

/-- Collecting a thread that is gone. -/
theorem Since.reaped {r : Except (Failure E) CaptureBuf} {got : Except (Failure E) (Option CaptureBuf)}
    (h : Since L run later s) (hgone : s.thread = some (.gone r)) (hreap : s.reap r = (got, next)) :
    Since L run (later ++ [.returned got]) next := by
  cases h with
  | running now hrunning => simp [hgone] at hrunning
  | collected c hnone => simp [hgone] at hnone
  | lost hnone => simp [hgone] at hnone
  | uncollected r' hleaving hnone hsilent hleft =>
    obtain rfl : r = r' := by
      rcases hleaving with hleaving | hleaving
      · simp [hgone] at hleaving
      · simpa [hgone] using hleaving
    rcases r with f | c
    · obtain ⟨rfl, rfl⟩ := Prod.mk.inj hreap
      exact .lost rfl hnone later [] f rfl hsilent fun r hr => by cases hr
    · obtain ⟨rfl, rfl⟩ := Prod.mk.inj hreap
      refine .collected c rfl rfl (fun r hr => ?_) ((hleft c rfl).concat rfl)
      rcases List.mem_append.1 hr with hold | hnew
      · exact .inl (hsilent r hold)
      · exact .inr (Event.returned.inj (List.mem_singleton.1 hnew))

theorem Since.results_of_running {now : LiveRun m PyObject} (h : Since L run later s)
    (hrun : s.thread = some (.running now)) : s.results = none ∧ Silent later := by
  cases h with
  | running now' hrunning hnone hsilent => exact ⟨hnone, hsilent⟩
  | uncollected r hleaving hnone hsilent => exact ⟨hnone, hsilent⟩
  | collected c hnone => simp [hrun] at hnone
  | lost hnone => simp [hrun] at hnone

/-- What the callbacks answer does not depend on when the sniffer was started. -/
theorem spawned_answer {shown last : Frame → Bool} {dlt : UInt32}
    (hans : st.Answer L (link_to_proto dlt) shown last) (deadline : Option ℕ) :
    (spawned link_to_proto snaplen st dlt deadline).st.Answer L (link_to_proto dlt) shown last :=
  ⟨hans.lfilter, hans.stop_filter⟩

variable [LawfulMonad m] [LawfulMonadAttach m]

/-- **One event keeps the phase**: a start moves it on, a pass and the flag lengthen the record, and what is
left can only move the thread. -/
theorem Phase.step (h : Phase L link_to_proto snaplen st events s) (hstep : Step L link_to_proto s e next) :
    Phase L link_to_proto snaplen st (events ++ [e]) next := by
  cases h with
  | waiting hpending hthread hresults hsilent hunstarted =>
    cases hstep with
    | start hstart =>
      rcases start_cases hstart with ⟨rfl, hfails⟩ | ⟨snaplen', st', dlt, hpending', -, rfl, rfl⟩
      · exact .waiting hpending hthread hresults (hsilent.concat fun r hr => by cases hr)
          (hunstarted.concat fun x hx => hfails x (Event.start.inj hx))
      · obtain ⟨rfl, rfl⟩ : snaplen = snaplen' ∧ st = st' := by simpa [hpending] using hpending'
        exact .started events [] dlt _ rfl rfl hsilent (by simpa using hunstarted) (by simp) (by simp [turns])
          (.running _ rfl hresults (fun r hr => by cases hr) .nil)
    | stop =>
      exact .waiting hpending hthread hresults (hsilent.concat fun r hr => by cases hr)
        (hunstarted.concat fun x hx => by cases hx)
    | stored =>
      exact .waiting hpending hthread hresults
        (hsilent.concat fun r hr => by rw [← Event.returned.inj hr, hresults])
        (hunstarted.concat fun x hx => by cases hx)
    | reaped hgone => simp [hthread] at hgone
    -- there is no thread yet
    | turn hrun => simp [hthread] at hrun
    | broken hrun => simp [hthread] at hrun
    | finished hleaving => simp [hthread] at hleaving
  | started before later dlt deadline hevents hpending hbefore hunstarted hstop hseen hsince =>
    have hevents' : events ++ [e] = before ++ .start (.ok (dlt, deadline)) :: (later ++ [e]) := by
      rw [hevents, List.append_assoc, List.cons_append]
    -- what any event but the store of the flag and a pass keeps
    have hrest : e ≠ .stop → turn_of e = none → (∀ x, e ≠ .start (.ok x)) → next.stop = s.stop →
        next.pending = none → Since L (spawned link_to_proto snaplen st dlt deadline) (later ++ [e]) next →
        Phase L link_to_proto snaplen st (events ++ [e]) next := fun hne hturn hnew hflag hnone hnext => by
      refine .started before (later ++ [e]) dlt deadline hevents' hnone hbefore ?_ ?_ ?_ hnext
      · rw [← List.append_assoc]
        exact hunstarted.concat hnew
      · rw [hflag, ← hstop]
        simp [hne.symm]
      · intro hmem
        have hold : .stopped ∈ turns later := by simpa [hturn] using hmem
        exact List.mem_append_left _ (hseen hold)
    cases hstep with
    | start hstart =>
      rcases start_cases hstart with ⟨rfl, hfails⟩ | ⟨_, _, _, hpending', -⟩
      · exact hrest (by simp) rfl (fun x hx => hfails x (Event.start.inj hx)) rfl hpending
          (hsince.unmoved rfl rfl rfl fun r hr => by cases hr)
      -- a second start finds nothing left to capture with
      · simp [hpending] at hpending'
    | stop =>
      refine .started before (later ++ [.stop]) dlt deadline hevents' hpending hbefore ?_ (by simp) (fun _ => by simp)
        (hsince.unmoved rfl rfl rfl fun r hr => by cases hr)
      rw [← List.append_assoc]
      exact hunstarted.concat fun x hx => by cases hx
    | stored =>
      exact hrest (by simp) rfl (fun x hx => by cases hx) rfl hpending
        (hsince.unmoved rfl rfl rfl fun r hr => (Event.returned.inj hr).symm)
    | reaped hgone hreap =>
      have hkept := reap_frame hreap
      exact hrest (by simp) rfl (fun x hx => by cases hx) hkept.1 (hkept.2.trans hpending)
        (hsince.reaped hgone hreap)
    | @turn now run' t p hrun hflag hret =>
      have hnext : Since L (spawned link_to_proto snaplen st dlt deadline) (later ++ [.turn t])
          { s with thread := some (after run' p) } :=
        hsince.passed hrun hret rfl rfl (LiveRun.turn_endless hret)
      refine .started before (later ++ [.turn t]) dlt deadline hevents' hpending hbefore ?_ (by simpa using hstop) ?_
        hnext
      · rw [← List.append_assoc]
        exact hunstarted.concat fun x hx => by cases hx
      · intro hmem
        -- the flag that a pass sees was stored before it
        have hmem' : .stopped ∈ turns later ∨ .stopped = t := by simpa [turn_of] using hmem
        refine List.mem_append_left _ (hmem'.elim hseen fun heq => hstop.2 (hflag heq.symm))
    | broken hrun =>
      obtain ⟨hnone, hsilent⟩ := hsince.results_of_running hrun
      exact hrest (by simp) rfl (fun x hx => by cases hx) rfl hpending
        (.uncollected _ (.inl rfl) hnone (hsilent.concat fun r hr => by cases hr) fun c hc => by cases hc)
    | @finished r hleaving =>
      refine hrest (by simp) rfl (fun x hx => by cases hx) rfl hpending ?_
      cases hsince with
      | running now hrunning => simp [hleaving] at hrunning
      | collected c hnone => simp [hleaving] at hnone
      | lost hnone => simp [hleaving] at hnone
      | uncollected r' hthread hnone hsilent hleft =>
        obtain rfl : r = r' := by
          rcases hthread with hthread | hthread
          · simpa [hleaving] using hthread
          · simp [hleaving] at hthread
        exact .uncollected r (.inr rfl) hnone (hsilent.concat fun r hr => by cases hr)
          fun c hc => (hleft c hc).concat rfl

theorem Runs.phase (h : Runs L link_to_proto (new snaplen st) events s) :
    Phase L link_to_proto snaplen st events s := by
  induction h with
  | nil => exact .waiting rfl rfl rfl (fun r hr => by cases hr) fun x hx => by cases hx
  | concat _ hstep ih => exact ih.step hstep

/-- What a thread leaves behind is the capture of the turns it heard, and it left because it was
asked to or because the capture was over. -/
theorem Left.captured {shown last : Frame → Bool} {dlt : UInt32} {deadline : Option ℕ} {c : CaptureBuf}
    (h : Left L (spawned link_to_proto snaplen st dlt deadline) later c)
    (hans : st.Answer L (link_to_proto dlt) shown last) (hnew : st.kept = 0)
    (hseen : .stopped ∈ turns later → .stop ∈ later) :
    let armed : SniffState m PyObject := { st with deadline }
    c = armed.captured L (link_to_proto dlt) shown last (.new dlt snaplen) (turns later) ∧
      (.stop ∈ later ∨ armed.Over L (link_to_proto dlt) shown last (turns later)) := by
  obtain ⟨run', hpasses, rfl⟩ := h
  have hroom : (spawned link_to_proto snaplen st dlt deadline).st.Room := by
    have hkept : (spawned link_to_proto snaplen st dlt deadline).st.kept = 0 := hnew
    unfold SniffState.Room
    omega
  obtain ⟨hout, hwhy⟩ := hpasses.captured rfl (spawned_answer hans deadline) hroom
  exact ⟨hout, hwhy.imp hseen id⟩

end Phases

def failed : Event E → Bool
  | .returned (.error _) => true
  | _ => false

/-- A `start` that gave its caller no error. -/
def succeeded : Event E → Bool
  | .start (.ok _) => true
  | _ => false

theorem Unstarted.none_succeeded {events : List (Event E)} (h : Unstarted events) :
    events.countP succeeded = 0 := by
  rw [List.countP_eq_zero]
  intro e he hsucceeded
  match e with
  | .start (.ok x) => exact h x he

theorem Unstarted.one_succeeded {before later : List (Event E)} (h : Unstarted (before ++ later))
    (x : UInt32 × Option ℕ) : (before ++ .start (.ok x) :: later).countP succeeded = 1 := by
  have hnone := h.none_succeeded
  rw [List.countP_append] at hnone
  rw [List.countP_append, List.countP_cons_of_pos rfl]
  omega

/-- In silence no call failed. -/
theorem Silent.not_failed {events : List (Event E)} (h : Silent events) : events.countP failed = 0 := by
  rw [List.countP_eq_zero]
  intro e he hfailed
  match e with
  | .returned (.error f) => cases h _ he

/-- **What a background capture gives its owner**, whatever calls are made in whatever order and however
they fall between the passes of the thread. At most one start succeeds, and there is one capture at most,
given back by every call that gives anything: it holds what a sniffer takes of the frames read since,
and was ended by a `stop` made since, or by its own time, count or `stop_filter`. A thread that failed
says so once, and then there is nothing. -/
theorem live_sniffer_captures [Coe PyPkt PyObject] [Monad m] [LawfulMonad m] [MonadAttach m] [LawfulMonadAttach m]
    {L : Layers} {link_to_proto : UInt32 → ProtoId} {snaplen : UInt32} {st : SniffState m PyObject}
    {shown last : Frame → Bool} {events : List (Event E)} {s : LiveSniffer m PyObject E}
    (hans : ∀ dlt, st.Answer L (link_to_proto dlt) shown last) (hnew : st.kept = 0)
    (h : Runs L link_to_proto (new snaplen st) events s) :
    (∀ c, .returned (.ok (some c)) ∈ events → s.results = some c) ∧
    (∀ c, s.results = some c → events.countP failed = 0 ∧ ∃ before dlt deadline later,
      events = before ++ .start (.ok (dlt, deadline)) :: later ∧ Unstarted (before ++ later) ∧
      let armed : SniffState m PyObject := { st with deadline }
      c = armed.captured L (link_to_proto dlt) shown last (.new dlt snaplen) (turns later) ∧
        (.stop ∈ later ∨ armed.Over L (link_to_proto dlt) shown last (turns later))) ∧
    events.countP failed ≤ 1 ∧ events.countP succeeded ≤ 1 := by
  have hsilent : ∀ {events : List (Event E)}, Silent events →
      ∀ c, .returned (.ok (some c)) ∉ events := fun hs c hc => by cases hs _ hc
  cases h.phase with
  | waiting hpending hthread hresults hquiet hunstarted =>
    exact ⟨fun c hc => absurd hc (hsilent hquiet c), fun c hc => by simp [hresults] at hc,
      hquiet.not_failed.trans_le zero_le_one, hunstarted.none_succeeded.trans_le zero_le_one⟩
  | started before later dlt deadline hevents hpending hbefore hunstarted hstop hseen hsince =>
    subst hevents
    have hstarts := (hunstarted.one_succeeded (dlt, deadline)).le
    have hcount : (before ++ .start (.ok (dlt, deadline)) :: later).countP failed = later.countP failed := by
      simp [hbefore.not_failed, failed]
    have hlater : ∀ c, .returned (.ok (some c)) ∈ before ++ .start (.ok (dlt, deadline)) :: later →
        .returned (.ok (some c)) ∈ later := fun c hc => by
      simpa [hsilent hbefore c] using hc
    rw [hcount]
    cases hsince with
    | running now hrunning hresults hquiet =>
      exact ⟨fun c hc => absurd (hlater c hc) (hsilent hquiet c), fun c hc => by simp [hresults] at hc,
        hquiet.not_failed.trans_le zero_le_one, hstarts⟩
    | uncollected r hleaving hresults hquiet =>
      exact ⟨fun c hc => absurd (hlater c hc) (hsilent hquiet c), fun c hc => by simp [hresults] at hc,
        hquiet.not_failed.trans_le zero_le_one, hstarts⟩
    | collected c hgone hresults hgave hleft =>
      -- every call gave nothing or this capture
      have hnone : later.countP failed = 0 := by
        rw [List.countP_eq_zero]
        intro e he hfailed
        match e with
        | .returned (.error f) => rcases hgave _ he with hf | hf <;> cases hf
      refine ⟨fun c' hc' => ?_, fun c' hc' => ?_, hnone.trans_le zero_le_one, hstarts⟩
      · rcases hgave _ (hlater c' hc') with hf | hf
        · cases hf
        · rw [hresults, Option.some.inj (Except.ok.inj hf)]
      · obtain rfl : c = c' := by simpa [hresults] using hc'
        exact ⟨hnone, before, dlt, deadline, later, rfl, hunstarted, hleft.captured (hans dlt) hnew hseen⟩
    | lost hgone hresults earlier latest f heq hearlier hlatest =>
      refine ⟨fun c hc => ?_, fun c hc => by simp [hresults] at hc, ?_, hstarts⟩
      · have hmem := hlater c hc
        rw [heq] at hmem
        simp [hsilent hearlier c, hsilent hlatest c] at hmem
      · rw [heq]
        rw [List.countP_append, hearlier.not_failed, List.countP_cons_of_pos rfl, hlatest.not_failed]

/-- Started, one frame read, stopped, and collected. -/
def one_capture : List (Event String) :=
  [.start (.ok (1, none)), .turn (.polled 1 (.read ⟨1, 5, 2, 60⟩ 1 [0, 0])), .stop, .turn .stopped, .finished,
    .returned (.ok (some ((CaptureBuf.new 1 262144).push ⟨1, 5, 2, 60⟩ [0, 0])))]

def collected_one : LiveSniffer (StateM ℕ) (Option PyPkt) String :=
  ⟨none, true, none, some ((CaptureBuf.new 1 262144).push ⟨1, 5, 2, 60⟩ [0, 0])⟩

/-- One capture started and collected. -/
theorem runs_one : Runs Layers.core (fun _ => .Ether) (new 262144 SniffState.two) one_capture collected_one := by
  let run : LiveRun (StateM ℕ) (Option PyPkt) := spawned (fun _ => .Ether) 262144 SniffState.two 1 none
  let next : LiveRun (StateM ℕ) (Option PyPkt) := ⟨run.st.counted, run.out.push ⟨1, 5, 2, 60⟩ [0, 0], .Ether⟩
  let sniffer (stop : Bool) (t : Thread (StateM ℕ) (Option PyPkt) String) :
      LiveSniffer (StateM ℕ) (Option PyPkt) String := ⟨none, stop, some t, none⟩
  have hstart : Step Layers.core (fun _ => .Ether) (new 262144 SniffState.two)
      (.start (.ok (1, none)) : Event String) (sniffer false (.running run)) :=
    @Step.start _ _ _ _ _ _ _ _ _ _ (.ok 1) none _ rfl
  have hread : Step Layers.core (fun _ => .Ether) (sniffer false (.running run))
      (.turn (.polled 1 (.read ⟨1, 5, 2, 60⟩ 1 [0, 0]))) (sniffer false (.running next)) :=
    .turn (p := .again) rfl (by simp) ⟨0, 1, rfl⟩
  have hstops : CanReturn (next.turn Layers.core false (.stopped : Turn String)) (.over .Stop, next) := ⟨1, 1, rfl⟩
  have hseen : Step Layers.core (fun _ => .Ether) (sniffer true (.running next)) (.turn .stopped)
      (sniffer true (.leaving (.ok next.out))) :=
    .turn rfl (fun _ => rfl) hstops
  have hreaped : Step Layers.core (fun _ => .Ether) (sniffer true (.gone (.ok next.out)))
      (.returned (.ok (some next.out))) collected_one := .reaped rfl rfl
  exact (((((Runs.nil.concat hstart).concat hread).concat .stop).concat hseen).concat (.finished rfl)).concat hreaped

theorem live_sniffer_captures_one : one_capture.countP succeeded ≤ 1 ∧ ∃ before dlt deadline later,
    one_capture = before ++ .start (.ok (dlt, deadline)) :: later ∧ Unstarted (before ++ later) := by
  obtain ⟨-, hcaptured, -, hstarts⟩ := live_sniffer_captures (fun _ => SniffState.two_answers _ _) rfl runs_one
  obtain ⟨-, before, dlt, deadline, later, hevents, hunstarted, -⟩ := hcaptured _ rfl
  exact ⟨hstarts, before, dlt, deadline, later, hevents, hunstarted⟩

end LiveSniffer
end Wiry.Sniff
