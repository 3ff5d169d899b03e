/-
`_process_packet` (`python/wiry/sendrecv.py`) taken apart.

`Wiry.Answers.SndRcv` takes a reply in by one step. The code takes several, with the lock held: the
packet is looked for, the answer is kept, `noans` is counted up, the packet is marked as answered and,
without `multi`, removed from `hsent`. Of what the sending thread does only `_record` waits for that
lock. It leaves its loop, sets `notans` and `_send_done` and asks `_settled` whenever it likes, so it may
see `noans` counted up and the packet still in `hsent`.

The moments of this module are the states of `step` with a reply that may be half taken in. Two things
are said of them. Every run through such moments is beside a run of `step` in which each reply is
taken in at once, where its answer is counted (`moves_refine`), and between two replies the two are in the
same state (`round_of_moves`), so what `SndRcv` proves of a round holds of these. And `_settled` is told
exactly at every moment, the half-taken reply included (`settled_iff`).
-/
import Wiry.Answers.SndRcv

set_option autoImplicit false

namespace Wiry.Answers

open Packet (Bytes)

variable {P R : Type*}

/-! ## The lock -/

/-- What `_process_packet` does next with the reply it holds the lock for. -/
inductive Taking (P R : Type*) where
  /-- `nbrecv += 1`: nothing that waits is answered. -/
  | stray (r : R)
  /-- `ans.append((hit.pkt, r))`. -/
  | found (hit : Sent P) (at_ : ℕ) (r : R)
  /-- `noans += 1`, if `hit` was not answered before. -/
  | kept (hit : Sent P) (at_ : ℕ) (r : R)
  /-- `hit.answered = True`. -/
  | counted (hit : Sent P) (at_ : ℕ)
  /-- `hsent.remove(hit)`. -/
  | marked (at_ : ℕ)

/-- A state of the round, and the reply that is half taken in, if one is. -/
structure Moment (P R : Type*) where
  state : State P R
  taking : Option (Taking P R)

/-- A step of the two threads and the clock where the lock does not hide the single assignments. -/
inductive Move (R : Type*) where
  | other (e : Event R)
  /-- The lock is taken, and `_match` looks for the packet. -/
  | take (r : R)
  /-- The receiving thread goes on with the reply. -/
  | on

variable (W : Wire P R)

/-- One assignment of `_process_packet`, and what is left of it. -/
def Taking.on (multi : Bool) (h : Handler P R) : Taking P R → Handler P R × Option (Taking P R)
  | .stray _ => ({ h with nbrecv := h.nbrecv + 1 }, none)
  | .found hit at_ r => ({ h with ans := h.ans ++ [(hit.pkt, r)] }, some (.kept hit at_ r))
  | .kept hit at_ _ =>
    ({ h with noans := if hit.answered then h.noans else h.noans + 1 }, some (.counted hit at_))
  | .counted hit at_ =>
    ({ h with hsent := h.hsent.set at_ { hit with answered := true } },
      if multi then none else some (.marked at_))
  | .marked at_ => ({ h with hsent := h.hsent.eraseIdx at_ }, none)

/-- Whether the lock lets a step through: a packet is put down under it. -/
def Moment.lets (m : Moment P R) : Event R → Bool
  | .record => m.taking.isNone
  | .receive _ => false
  | _ => true

def move (multi first : Bool) (m : Moment P R) : Move R → Option (Moment P R)
  | .other e =>
    if m.lets e then (step W multi first m.state e).map fun s => { m with state := s } else none
  | .take r =>
    match m.taking with
    | none => some { m with taking := some (
        match _match W multi m.state.handler.hsent r with
        | some (hit, at_) => .found hit at_ r
        | none => .stray r) }
    | some _ => none
  | .on => m.taking.map fun t =>
    { state := { m.state with handler := (t.on multi m.state.handler).1 }
      taking := (t.on multi m.state.handler).2 }

/-- A run of such steps. -/
def moves (multi first : Bool) (m : Moment P R) : List (Move R) → Option (Moment P R)
  | [] => some m
  | x :: xs => (move W multi first m x).bind fun m => moves multi first m xs

def Moment.start (tobesent : List P) (ans : List (P × R)) (nbrecv : ℕ) : Moment P R :=
  ⟨.start tobesent ans nbrecv, none⟩

/-- The replies the lock was taken for. -/
def taken (ms : List (Move R)) : List R :=
  ms.filterMap fun
    | .take r => some r
    | _ => none

def Move.fails : Move R → Bool
  | .other e => e.fails
  | _ => false

/-! ## A reply at once

The answer counts from `noans += 1` on: that is where the run beside takes the whole reply in. Before it
the half-taken reply shows one answer more, after it one packet more in `hsent`, and no step the lock
lets through looks at either. -/

/-- The same state, with these answers and packets in it. -/
def State.showing (s : State P R) (ans : List (P × R)) (hsent : List (Sent P)) : State P R :=
  { s with handler := { s.handler with ans := ans, hsent := hsent } }

/-- A moment beside a state of `step`, with the replies that state has still to take in. -/
inductive Beside (multi : Bool) : Moment P R → State P R → List R → Prop
  | between (s : State P R) : Beside multi ⟨s, none⟩ s []
  | stray {s : State P R} {r : R} (hmiss : _match W multi s.handler.hsent r = none) :
    Beside multi ⟨s, some (.stray r)⟩ s [r]
  | found {s : State P R} {hit : Sent P} {at_ : ℕ} {r : R}
      (hhit : _match W multi s.handler.hsent r = some (hit, at_)) :
    Beside multi ⟨s, some (.found hit at_ r)⟩ s [r]
  | kept {s : State P R} {hit : Sent P} {at_ : ℕ} {r : R}
      (hhit : _match W multi s.handler.hsent r = some (hit, at_)) :
    Beside multi ⟨s.showing (s.handler.ans ++ [(hit.pkt, r)]) s.handler.hsent, some (.kept hit at_ r)⟩ s [r]
  | counted {s : State P R} {hsent : List (Sent P)} {hit : Sent P} {at_ : ℕ}
      (hleft : s.handler.hsent = after_hit multi hsent hit at_) :
    Beside multi ⟨s.showing s.handler.ans hsent, some (.counted hit at_)⟩ s []
  | marked {s : State P R} {hsent : List (Sent P)} {at_ : ℕ}
      (hleft : s.handler.hsent = hsent.eraseIdx at_) :
    Beside multi ⟨s.showing s.handler.ans hsent, some (.marked at_)⟩ s []

variable {W} {multi first : Bool} {m m' : Moment P R} {s s' : State P R} {pending : List R}

/-- A step the lock lets through while a reply is half taken in. -/
def Event.Unlocked (e : Event R) : Prop := e ≠ .record ∧ ∀ r, e ≠ .receive r

theorem lets_taking {t : Taking P R} {e : Event R} (h : (Moment.mk s (some t)).lets e = true) : e.Unlocked := by
  constructor
  · rintro rfl
    cases h
  · rintro r rfl
    cases h

/-- Such a step does the same whatever answers and packets are shown it, and keeps them. -/
theorem step_showing {e : Event R} (he : e.Unlocked) (s : State P R) (ans : List (P × R))
    (hsent : List (Sent P)) :
    step W multi first (s.showing ans hsent) e = (step W multi first s e).map (·.showing ans hsent) := by
  obtain ⟨hrecord, hreceive⟩ := he
  cases e with
  | record => exact absurd rfl hrecord
  | receive r => exact absurd rfl (hreceive r)
  | check => rfl
  | stop => rfl
  | sent =>
    by_cases hphase : s.sender.phase = .sending
    · cases hbreakout : s.handler.breakout <;> simp [step, State.showing, hphase, hbreakout]
    · simp [step, State.showing, hphase]
  | failed =>
    by_cases hphase : s.sender.phase = .sending ∨ s.sender.phase = .ready <;>
      simp [step, State.showing, hphase]
  | finish =>
    by_cases hphase : s.sender.phase = .leaving ∨ s.sender.phase = .ready ∧ s.sender.todo = [] <;>
      simp [step, State.showing, hphase]

theorem step_keeps {e : Event R} (he : e.Unlocked) (h : step W multi first s e = some s') :
    s'.handler.ans = s.handler.ans ∧ s'.handler.hsent = s.handler.hsent := by
  have hshown := @step_showing P R W multi first e he s s.handler.ans s.handler.hsent
  have hself : s.showing s.handler.ans s.handler.hsent = s := rfl
  rw [hself, h] at hshown
  have hs' := Option.some.inj hshown
  rw [hs']
  exact ⟨rfl, rfl⟩

/-- The state beside takes the same step. -/
theorem Beside.other (h : Beside W multi m s pending) {e : Event R} (hlets : m.lets e = true) {t : State P R}
    (hstep : step W multi first m.state e = some t) :
    ∃ s', step W multi first s e = some s' ∧ Beside W multi { m with state := t } s' pending := by
  -- what is half taken in is shown the step as well
  have hshown : ∀ {ans : List (P × R)} {hsent : List (Sent P)}, e.Unlocked →
      step W multi first (s.showing ans hsent) e = some t →
      ∃ s', step W multi first s e = some s' ∧ t = s'.showing ans hsent ∧
        s'.handler.ans = s.handler.ans ∧ s'.handler.hsent = s.handler.hsent := by
    intro ans hsent he ht
    rw [step_showing he, Option.map_eq_some_iff] at ht
    obtain ⟨s', hs', rfl⟩ := ht
    exact ⟨s', hs', rfl, step_keeps he hs'⟩
  cases h with
  | between => exact ⟨t, hstep, .between t⟩
  | stray hmiss =>
    have hkeeps := (step_keeps (lets_taking hlets) hstep).2
    exact ⟨t, hstep, .stray (by rw [hkeeps]; exact hmiss)⟩
  | found hhit =>
    have hkeeps := (step_keeps (lets_taking hlets) hstep).2
    exact ⟨t, hstep, .found (by rw [hkeeps]; exact hhit)⟩
  | kept hhit =>
    obtain ⟨s', hs', rfl, hans, hhsent⟩ := hshown (lets_taking hlets) hstep
    refine ⟨s', hs', ?_⟩
    rw [← hans, ← hhsent]
    exact .kept (by rw [hhsent]; exact hhit)
  | counted hleft =>
    obtain ⟨s', hs', rfl, hans, hhsent⟩ := hshown (lets_taking hlets) hstep
    refine ⟨s', hs', ?_⟩
    rw [← hans]
    exact .counted (hhsent.trans hleft)
  | marked hleft =>
    obtain ⟨s', hs', rfl, hans, hhsent⟩ := hshown (lets_taking hlets) hstep
    refine ⟨s', hs', ?_⟩
    rw [← hans]
    exact .marked (hhsent.trans hleft)

/-- The handler may take the next frame at any moment: what it has done so far stays beside the
sender's. -/
theorem Beside.take (h : Beside W multi m s pending) {r : R} (hmove : move W multi first m (.take r) = some m') :
    Beside W multi m' s (pending ++ [r]) := by
  cases h with
  | between =>
    obtain rfl := Option.some.inj hmove
    cases hmatch : _match W multi s.handler.hsent r with
    | none => exact .stray hmatch
    | some x => exact .found hmatch
  | stray => cases hmove
  | found => cases hmove
  | kept => cases hmove
  | counted => cases hmove
  | marked => cases hmove

/-- The state beside stands still, or takes in the reply that was pending. -/
theorem Beside.on (h : Beside W multi m s pending) (hmove : move W multi first m .on = some m') :
    Beside W multi m' s pending ∨
      ∃ r, pending = [r] ∧ Beside W multi m' { s with handler := _process_packet W multi s.handler r } [] := by
  cases h with
  | between => cases hmove
  | @stray s r hmiss =>
    obtain rfl := Option.some.inj hmove
    refine .inr ⟨r, rfl, ?_⟩
    simp only [_process_packet, hmiss]
    exact .between _
  | found hhit =>
    obtain rfl := Option.some.inj hmove
    exact .inl (.kept hhit)
  | @kept s hit at_ r hhit =>
    obtain rfl := Option.some.inj hmove
    refine .inr ⟨r, rfl, ?_⟩
    -- the answer counts from here on, and is out of `hsent` beside
    obtain ⟨s', hs'⟩ : ∃ s' : State P R, s' = { s with handler := _process_packet W multi s.handler r } :=
      ⟨_, rfl⟩
    have hleft : s'.handler.hsent = after_hit multi s.handler.hsent hit at_ := by
      rw [hs']
      simp only [_process_packet, hhit]
      rfl
    have hshown : (⟨s'.showing s'.handler.ans s.handler.hsent, some (.counted hit at_)⟩ : Moment P R) =
        ⟨⟨{ s.handler with
            ans := s.handler.ans ++ [(hit.pkt, r)]
            noans := if hit.answered then s.handler.noans else s.handler.noans + 1 }, s.sender⟩,
          some (.counted hit at_)⟩ := by
      rw [hs']
      simp only [_process_packet, hhit, State.showing]
    have hbeside : Beside W multi _ s' [] := .counted hleft
    rw [hshown, hs'] at hbeside
    exact hbeside
  | @counted s hsent hit at_ hleft =>
    obtain rfl := Option.some.inj hmove
    refine .inl ?_
    cases multi with
    | true =>
      have hsame : s.showing s.handler.ans (hsent.set at_ { hit with answered := true }) = s := by
        simp only [after_hit, if_true] at hleft
        rw [← hleft]
        rfl
      simp only [Taking.on, State.showing, if_true] at hsame ⊢
      rw [hsame]
      exact .between s
    | false =>
      have hremoved : s.handler.hsent = (hsent.set at_ { hit with answered := true }).eraseIdx at_ := by
        rw [hleft, after_hit, if_neg Bool.false_ne_true, List.eraseIdx_set_eq]
      exact .marked hremoved
  | @marked s hsent at_ hleft =>
    obtain rfl := Option.some.inj hmove
    refine .inl ?_
    have hsame : s.showing s.handler.ans (hsent.eraseIdx at_) = s := by
      rw [← hleft]
      rfl
    simp only [Taking.on, State.showing] at hsame ⊢
    rw [hsame]
    exact .between s

/-! ## Whole runs -/

theorem steps_append (xs ys : List (Event R)) :
    steps W multi first s (xs ++ ys) = (steps W multi first s xs).bind fun s => steps W multi first s ys := by
  induction xs generalizing s with
  | nil => rfl
  | cons e xs ih =>
    simp only [List.cons_append, steps, Option.bind_assoc]
    exact congrArg _ (funext fun s => ih)

/-- **A step between the single assignments is a step of the round, the taking in of a reply at once, or
nothing.** -/
theorem Beside.move (h : Beside W multi m s pending) {x : Move R} (hmove : move W multi first m x = some m') :
    ∃ events s' pending', steps W multi first s events = some s' ∧ Beside W multi m' s' pending' ∧
      pending ++ taken [x] = received events ++ pending' ∧ events.any Event.fails = x.fails := by
  -- A move beside the lock is a step of its own; taking a reply is none until its last statement,
  -- and is the whole `.receive` then.
  cases x with
  | other e =>
    simp only [Answers.move] at hmove
    split at hmove
    · rename_i hlets
      obtain ⟨t, ht, rfl⟩ := Option.map_eq_some_iff.1 hmove
      obtain ⟨s', hs', hbeside⟩ := h.other hlets ht
      have hnone : received [e] = [] := by
        cases e with
        | receive r => cases hlets
        | _ => rfl
      refine ⟨[e], s', pending, ?_, hbeside, ?_, ?_⟩
      · rw [steps, hs']
        rfl
      · rw [hnone]
        exact List.append_nil pending
      · exact Bool.or_false _
    · cases hmove
  | take r => exact ⟨[], s, pending ++ [r], rfl, h.take hmove, rfl, rfl⟩
  | on =>
    rcases h.on hmove with hsame | ⟨r, rfl, hnext⟩
    · exact ⟨[], s, pending, rfl, hsame, List.append_nil pending, rfl⟩
    · exact ⟨[.receive r], _, [], rfl, hnext, rfl, rfl⟩

/-- The run beside, step for step. -/
theorem Beside.moves (h : Beside W multi m s pending) {xs : List (Move R)}
    (hmoves : moves W multi first m xs = some m') :
    ∃ events s' pending', steps W multi first s events = some s' ∧ Beside W multi m' s' pending' ∧
      pending ++ taken xs = received events ++ pending' ∧ events.any Event.fails = xs.any Move.fails := by
  induction xs generalizing m s pending with
  | nil =>
    obtain rfl := Option.some.inj hmoves
    exact ⟨[], s, pending, rfl, h, List.append_nil pending, rfl⟩
  | cons x xs ih =>
    obtain ⟨next, hnext, hrest⟩ := Option.bind_eq_some_iff.1 hmoves
    obtain ⟨events, s₁, pending₁, hsteps, hbeside, htaken, hfails⟩ := h.move hnext
    obtain ⟨events', s', pending', hsteps', hbeside', htaken', hfails'⟩ := ih hbeside hrest
    refine ⟨events ++ events', s', pending', ?_, hbeside', ?_, ?_⟩
    · rw [steps_append, hsteps]
      exact hsteps'
    · have hsplit : taken (x :: xs) = taken [x] ++ taken xs := @List.filterMap_append _ _ [x] xs _
      have hall : received (events ++ events') = received events ++ received events' := List.filterMap_append
      rw [hsplit, hall, ← List.append_assoc, htaken, List.append_assoc, htaken', List.append_assoc]
    · rw [List.any_append, hfails, hfails']
      rfl

variable {tobesent : List P} {ans₀ : List (P × R)} {nbrecv₀ : ℕ} {xs : List (Move R)}

/-- **Whatever falls between the assignments, a run of `step` is beside it**: it takes in the same replies
in the same order, but for the one whose answer does not count yet. -/
theorem moves_refine (h : moves W multi first (.start tobesent ans₀ nbrecv₀) xs = some m) :
    ∃ events s pending, steps W multi first (.start tobesent ans₀ nbrecv₀) events = some s ∧
      Beside W multi m s pending ∧ taken xs = received events ++ pending ∧
      events.any Event.fails = xs.any Move.fails :=
  (Beside.between (State.start tobesent ans₀ nbrecv₀)).moves h

/-- Between two replies it is in the same state. -/
theorem round_of_moves (h : moves W multi first (.start tobesent ans₀ nbrecv₀) xs = some m)
    (hbetween : m.taking = none) :
    ∃ events, steps W multi first (.start tobesent ans₀ nbrecv₀) events = some m.state ∧
      taken xs = received events := by
  obtain ⟨events, s, pending, hsteps, hbeside, htaken, -⟩ := moves_refine h
  cases hbeside with
  | between => exact ⟨events, hsteps, htaken.trans (List.append_nil _)⟩
  | stray => cases hbetween
  | found => cases hbetween
  | kept => cases hbetween
  | counted => cases hbetween
  | marked => cases hbetween

/-! ## `_settled` -/

/-- `hsent` but for the packet whose answer counts already and which is still to be removed. -/
def Moment.left (m : Moment P R) : List (Sent P) :=
  match m.taking with
  | some (.counted _ at_) => m.state.handler.hsent.eraseIdx at_
  | some (.marked at_) => m.state.handler.hsent.eraseIdx at_
  | _ => m.state.handler.hsent

theorem Beside.settled (h : Beside W false m s pending) :
    _settled false first m.state.handler = _settled false first s.handler ∧
      m.state.sender.phase = s.sender.phase ∧ m.left = s.handler.hsent := by
  cases h with
  | between => exact ⟨rfl, rfl, rfl⟩
  | stray => exact ⟨rfl, rfl, rfl⟩
  | found => exact ⟨rfl, rfl, rfl⟩
  | kept => exact ⟨rfl, rfl, rfl⟩
  | counted hleft => exact ⟨rfl, rfl, hleft.symm⟩
  | marked hleft => exact ⟨rfl, rfl, hleft.symm⟩

/-- **The wait ends of itself exactly when everything sent was answered.** At every moment of every
interleaving in which no send raised, `_settled` says that the sending is over and that `hsent` holds
nothing but, at most, the packet whose answer was just counted; between two replies, that `hsent` is
empty. -/
theorem settled_iff (h : moves W false false (.start tobesent ans₀ nbrecv₀) xs = some m)
    (hfails : xs.any Move.fails = false) :
    (_settled false false m.state.handler = true ↔ m.state.sender.phase = .done ∧ m.left = []) ∧
      (m.taking = none → (_settled false false m.state.handler = true ↔
        m.state.sender.phase = .done ∧ m.state.handler.hsent = [])) := by
  obtain ⟨events, s, pending, hsteps, hbeside, -, hsame⟩ := moves_refine h
  obtain ⟨hsettled, hphase, hleft⟩ := @Beside.settled P R W false m s pending hbeside
  have hiff : _settled false false m.state.handler = true ↔ m.state.sender.phase = .done ∧ m.left = [] := by
    rw [hsettled, hphase, hleft]
    exact settled_between hsteps (hsame.trans hfails)
  refine ⟨hiff, fun hbetween => ?_⟩
  have hwhole : m.left = m.state.handler.hsent := by rw [Moment.left, hbetween]
  rwa [hwhole] at hiff

/-- The sender is through between `noans += 1` and the removal of the packet. -/
def half_taken : List (Move Bytes) :=
  [.other .record, .other .sent, .take (segment 4 3 6 5).buf, .on, .on, .other .finish]

/-- `_settled` holds there, with the packet still in `hsent`. -/
theorem settled_iff_half_taken : ∃ m,
    moves ip_wire false false (.start [(segment 3 4 5 6).buf] [] 0) half_taken = some m ∧
      m.state.handler.hsent.length = 1 ∧
      (_settled false false m.state.handler = true ↔ m.state.sender.phase = .done ∧ m.left = []) := by
  refine ⟨_, rfl, rfl, ?_⟩
  exact (settled_iff (show moves ip_wire false false (.start [(segment 3 4 5 6).buf] [] 0) half_taken = some _
    from rfl) rfl).1

end Wiry.Answers
