/-
`python/wiry/sendrecv.py` (`SndRcvHandler`): one thread sends and another takes what comes back, round
after round, until nothing is left to send again.

A round is a run of steps in any order in which the two threads and the clock can take them. What a
packet is made of is a parameter; the flood senders and what is kept for `debug_match` are left out.
-/
import Mathlib.Algebra.Order.Group.Multiset
import Mathlib.Algebra.Order.Ring.Int
import Mathlib.Tactic.Abel
import Wiry.Answers.Exchange

set_option autoImplicit false

namespace Wiry.Answers

open Packet (Bytes ProtoId Layers dissect_spans)

variable {P R : Type*}

/-- What the handler asks of the packets it sends and of those it is given, and of `conf`. -/
structure Wire (P R : Type*) where
  octets : P → Bytes
  link : P → String
  frame_at : R → String → Option Bytes
  proto_by_name : String → Option ProtoId
  on_wire : P → P
  L : Layers
  checkIPaddr : Bool

/-- `_Sent`. -/
structure Sent (P : Type*) where
  pkt : P
  frame : Bytes
  link : String
  answered : Bool

def Sent.new (W : Wire P R) (pkt : P) : Sent P := ⟨pkt, W.octets pkt, W.link pkt, false⟩

/-- `groups.setdefault(e.link, []).append(e)`. -/
def setdefault_append {ε : Type*} (link : ε → String) : List (String × List ε) → ε → List (String × List ε)
  | [], e => [(link e, [e])]
  | (name, group) :: rest, e =>
    if name = link e then (name, group ++ [e]) :: rest else (name, group) :: setdefault_append link rest e

def groups {ε : Type*} (link : ε → String) (waiting : List ε) : List (String × List ε) :=
  waiting.foldl (setdefault_append link) []

variable (W : Wire P R)

/-- The one of a group that `r` answers. -/
def match_in (r : R) (link : String) (group : List (Sent P × ℕ)) : Option (Sent P × ℕ) :=
  match W.frame_at r link with
  | none => none
  | some frame =>
    match W.proto_by_name link with
    | none => none
    | some p =>
      match (pair_replies W.L (group.map (·.1.frame)) [frame] p false W.checkIPaddr).1 with
      | [] => none
      | x :: _ => group[x.1]?

/-- The packet `r` answers, and where it stands in `hsent`. -/
def _match (multi : Bool) (hsent : List (Sent P)) (r : R) : Option (Sent P × ℕ) :=
  let waiting := hsent.zipIdx.filter fun e => multi || !e.1.answered
  (groups (·.1.link) waiting).findSome? fun g => match_in W r g.1 g.2

structure Handler (P R : Type*) where
  ans : List (P × R)
  nbrecv : ℕ
  hsent : List (Sent P)
  notans : ℕ
  noans : ℕ
  send_done : Bool
  breakout : Bool

def _process_packet (multi : Bool) (h : Handler P R) (r : R) : Handler P R :=
  match _match W multi h.hsent r with
  | some (hit, at_) =>
    { h with
      ans := h.ans ++ [(hit.pkt, r)]
      noans := if hit.answered then h.noans else h.noans + 1
      hsent := if multi then h.hsent.set at_ { hit with answered := true } else h.hsent.eraseIdx at_ }
  | none => { h with nbrecv := h.nbrecv + 1 }

def _settled (multi first : Bool) (h : Handler P R) : Bool :=
  (h.send_done && decide (h.notans ≤ h.noans) && !multi) || (first && h.noans != 0)

/-! ## A round -/

/-- Where `_sndrcv_snd` stands. -/
inductive Phase where
  | ready
  | sending
  | leaving
  | done
deriving DecidableEq

structure Sender (P : Type*) where
  todo : List P
  i : ℕ
  phase : Phase

structure State (P R : Type*) where
  handler : Handler P R
  sender : Sender P

inductive Event (R : Type*) where
  /-- The next packet is put down as sent. -/
  | record
  /-- `send` came back. -/
  | sent
  /-- Something raised in the sending loop. -/
  | failed
  /-- The loop is left. -/
  | finish
  | receive (r : R)
  /-- `_stop_if_done`, of either thread. -/
  | check
  /-- A timeout, an interrupt or `stop_filter`. -/
  | stop

def State.start (tobesent : List P) (ans : List (P × R)) (nbrecv : ℕ) : State P R where
  handler := ⟨ans, nbrecv, [], 0, 0, false, false⟩
  sender := ⟨tobesent, 0, .ready⟩

def step (multi first : Bool) (s : State P R) : Event R → Option (State P R)
  | .record =>
    match s.sender.phase, s.sender.todo with
    | .ready, p :: rest => some
      { handler := { s.handler with hsent := s.handler.hsent ++ [Sent.new W (W.on_wire p)] }
        sender := { s.sender with todo := rest, phase := .sending } }
    | _, _ => none
  | .sent =>
    if s.sender.phase = .sending then some
      { s with sender := { s.sender with
          i := s.sender.i + 1, phase := if s.handler.breakout then .leaving else .ready } }
    else none
  | .failed =>
    if s.sender.phase = .sending ∨ s.sender.phase = .ready then some
      { s with sender := { s.sender with phase := .leaving } }
    else none
  | .finish =>
    if s.sender.phase = .leaving ∨ s.sender.phase = .ready ∧ s.sender.todo = [] then some
      { handler := { s.handler with notans := s.sender.i, send_done := true }
        sender := { s.sender with phase := .done } }
    else none
  | .receive r => some { s with handler := _process_packet W multi s.handler r }
  | .check => some
    { s with handler := { s.handler with
        breakout := s.handler.breakout || _settled multi first s.handler } }
  | .stop => some { s with handler := { s.handler with breakout := true } }

/-- A run of steps. -/
def steps (multi first : Bool) (s : State P R) : List (Event R) → Option (State P R)
  | [] => some s
  | e :: es => (step W multi first s e).bind fun s => steps multi first s es

/-! ## Who a reply is for -/

section Match

variable {W}

/-- `r` answers a packet that was sent. -/
def Wire.Hits (W : Wire P R) (e : Sent P) (r : R) : Prop :=
  ∃ frame ∈ W.frame_at r e.link, ∃ p ∈ W.proto_by_name e.link,
    ∃ key ∈ reply_key ⟨e.frame, dissect_spans W.L e.frame p⟩,
      answers_matching W.L key ⟨frame, dissect_spans W.L frame p⟩ W.checkIPaddr = true

theorem mem_setdefault_append {ε : Type*} {link : ε → String} {gs : List (String × List ε)} {e x : ε} :
    (∃ g ∈ setdefault_append link gs e, x ∈ g.2) ↔ (∃ g ∈ gs, x ∈ g.2) ∨ x = e := by
  induction gs with
  | nil => simp [setdefault_append]
  | cons g gs ih =>
    rw [setdefault_append]
    split
    · simp only [List.exists_mem_cons_iff, List.mem_append, List.mem_singleton]
      exact or_right_comm
    · rw [List.exists_mem_cons_iff, List.exists_mem_cons_iff, ih, or_assoc]

/-- Every group keeps to one link when an entry is filed under its own. -/
theorem link_setdefault_append {ε : Type*} {link : ε → String} {gs : List (String × List ε)} {e : ε}
    (h : ∀ g ∈ gs, ∀ x ∈ g.2, link x = g.1) :
    ∀ g ∈ setdefault_append link gs e, ∀ x ∈ g.2, link x = g.1 := by
  induction gs with
  | nil => simp [setdefault_append]
  | cons g gs ih =>
    obtain ⟨hg, hgs⟩ := List.forall_mem_cons.1 h
    rw [setdefault_append]
    split
    · rename_i hname
      refine List.forall_mem_cons.2 ⟨fun x hx => ?_, hgs⟩
      rcases List.mem_append.1 hx with hx | hx
      · exact hg x hx
      · rw [List.mem_singleton.1 hx, hname]
    · exact List.forall_mem_cons.2 ⟨hg, ih hgs⟩

/-- The groups hold what waits, each under its own link. -/
theorem groups_spec {ε : Type*} (link : ε → String) (waiting : List ε) :
    (∀ x, (∃ g ∈ groups link waiting, x ∈ g.2) ↔ x ∈ waiting) ∧
      ∀ g ∈ groups link waiting, ∀ x ∈ g.2, link x = g.1 := by
  induction waiting using List.reverseRecOn with
  | nil => simp [groups]
  | append_singleton waiting e ih =>
    have hstep : groups link (waiting ++ [e]) = setdefault_append link (groups link waiting) e := by
      simp [groups]
    rw [hstep]
    refine ⟨fun x => ?_, link_setdefault_append ih.2⟩
    rw [mem_setdefault_append, ih.1 x, List.mem_append, List.mem_singleton]

/-- Of one frame the first packet it answers is told, where there is one. -/
theorem Paired.single {ans : ℕ → ℕ → Prop} {pairs : List (ℕ × ℕ)} (h : Paired ans false pairs)
    (hone : ∀ i k, ans i k → k = 0) :
    (∀ x ∈ pairs, ans x.1 0) ∧ (pairs = [] → ∀ i, ¬ans i 0) := by
  constructor
  · rintro ⟨i, k⟩ hx
    have hans := ((h.mem_iff i k).1 hx).1
    rwa [hone i k hans] at hans
  · rintro rfl i
    induction i using Nat.strong_induction_on with
    | _ i ih =>
      intro hans
      have hmem := (h.mem_iff i 0).2 ⟨hans, fun _ => ⟨by simp, fun j hlt hj => absurd hj (ih j hlt)⟩⟩
      simp at hmem

/-- One look through a group: what it returns is in the group and answers, and it returns nothing
only when nothing in the group answers. The hash filter is sound because an answer shares its
request's hash. -/
theorem match_in_spec {r : R} {link : String} {group : List (Sent P × ℕ)}
    (hlink : ∀ x ∈ group, x.1.link = link) :
    (∀ x ∈ match_in W r link group, x ∈ group ∧ W.Hits x.1 r) ∧
      (match_in W r link group = none → ∀ x ∈ group, ¬W.Hits x.1 r) := by
  have hans : ∀ x ∈ group, W.Hits x.1 r ↔ ∃ frame ∈ W.frame_at r link, ∃ p ∈ W.proto_by_name link,
      ∃ key ∈ reply_key ⟨x.1.frame, dissect_spans W.L x.1.frame p⟩,
        answers_matching W.L key ⟨frame, dissect_spans W.L frame p⟩ W.checkIPaddr = true := by
    intro x hx
    rw [Wire.Hits, hlink x hx]
  unfold match_in
  split
  · rename_i hframe
    exact ⟨by simp, fun _ x hx => by simp [hans x hx, hframe]⟩
  · rename_i frame hframe
    split
    · rename_i hproto
      exact ⟨by simp, fun _ x hx => by simp [hans x hx, hproto]⟩
    · rename_i p hproto
      have hpaired := (pair_replies_paired W.L (group.map (·.1.frame)) [frame] p false W.checkIPaddr).1
      -- one frame was received, so a packet is paired with the first or with none
      have hone : ∀ i k, AnsweredBy W.L (group.map (·.1.frame)) [frame] p p W.checkIPaddr i k → k = 0 := by
        rintro i k ⟨s, -, f, hf, -⟩
        simpa using (List.getElem?_eq_some_iff.1 hf).1
      obtain ⟨hsome, hnone⟩ := hpaired.single hone
      have hat : ∀ i, ∀ x ∈ group[i]?, (W.Hits x.1 r ↔
          AnsweredBy W.L (group.map (·.1.frame)) [frame] p p W.checkIPaddr i 0) := by
        intro i x hx
        have hx' : group[i]? = some x := hx
        rw [hans x (List.mem_of_getElem? hx')]
        simp [AnsweredBy, hframe, hproto, hx']
      split
      · rename_i hnil
        refine ⟨by simp, fun _ x hx => ?_⟩
        obtain ⟨i, hi⟩ := List.getElem?_of_mem hx
        exact (hat i x hi).not.2 (hnone hnil i)
      · rename_i y rest hcons
        have hy := hsome y (hcons ▸ List.mem_cons_self)
        refine ⟨fun x hx => ⟨List.mem_of_getElem? hx, (hat y.1 x hx).2 hy⟩, fun hnone => ?_⟩
        obtain ⟨s, hs, -⟩ := hy
        rw [List.getElem?_map, Option.mem_def, hnone] at hs
        cases hs

/-- **A reply goes to a packet that waits and that it answers, and to none only where there is none.** -/
theorem match_spec {multi : Bool} {hsent : List (Sent P)} {r : R} :
    (∀ x ∈ _match W multi hsent r, hsent[x.2]? = some x.1 ∧ (multi = true ∨ x.1.answered = false) ∧
        W.Hits x.1 r) ∧
      (_match W multi hsent r = none → ∀ e ∈ hsent, (multi = true ∨ e.answered = false) → ¬W.Hits e r) := by
  obtain ⟨hmem, hlink⟩ := groups_spec (fun e : Sent P × ℕ => e.1.link)
    (hsent.zipIdx.filter fun e => multi || !e.1.answered)
  have hwaits : ∀ x : Sent P × ℕ, x ∈ hsent.zipIdx.filter (fun e => multi || !e.1.answered) ↔
      hsent[x.2]? = some x.1 ∧ (multi = true ∨ x.1.answered = false) := by
    intro x
    rw [List.mem_filter, List.mem_zipIdx_iff_getElem?]
    simp
  constructor
  · intro x hx
    obtain ⟨g, hg, hin⟩ := List.exists_of_findSome?_eq_some hx
    obtain ⟨hxg, hans⟩ := (match_in_spec (hlink g hg)).1 x hin
    obtain ⟨hat, hwait⟩ := (hwaits x).1 ((hmem x).1 ⟨g, hg, hxg⟩)
    exact ⟨hat, hwait, hans⟩
  · intro hnone e he hwait
    obtain ⟨k, hk⟩ := List.getElem?_of_mem he
    obtain ⟨g, hg, hxg⟩ := (hmem (e, k)).2 ((hwaits (e, k)).2 ⟨hk, hwait⟩)
    exact (match_in_spec (hlink g hg)).2 (List.findSome?_eq_none_iff.1 hnone g hg) _ hxg

end Match

/-! ## The ledger of a round -/

/-- What is sent again: `hsent`, and with `multi` those of it that nothing answered. -/
def remain (multi : Bool) (hsent : List (Sent P)) : List (Sent P) :=
  if multi then hsent.filter fun e => !e.answered else hsent

def received (events : List (Event R)) : List R :=
  events.filterMap fun
    | .receive r => some r
    | _ => none

theorem exists_split {ε : Type*} {l : List ε} {k : ℕ} {e : ε} (h : l[k]? = some e) :
    ∃ ahead behind, l = ahead ++ e :: behind ∧ l.eraseIdx k = ahead ++ behind ∧
      ∀ e', l.set k e' = ahead ++ e' :: behind := by
  obtain ⟨hk, rfl⟩ := List.getElem?_eq_some_iff.1 h
  refine ⟨l.take k, l.drop (k + 1), ?_, List.eraseIdx_eq_take_drop_succ l k, fun e' => ?_⟩
  · rw [← List.drop_eq_getElem_cons hk, List.take_append_drop]
  · rw [List.set_eq_take_append_cons_drop, if_pos hk]

/-- What is left of `hsent` once a packet of it was answered. -/
def after_hit (multi : Bool) (hsent : List (Sent P)) (hit : Sent P) (at_ : ℕ) : List (Sent P) :=
  if multi then hsent.set at_ { hit with answered := true } else hsent.eraseIdx at_

section AfterHit

variable {multi : Bool} {hsent : List (Sent P)} {hit : Sent P} {at_ : ℕ} (hat : hsent[at_]? = some hit)

include hat

/-- The first answer takes the packet off what is sent again, and nothing else with it. -/
theorem remain_after_first (hopen : hit.answered = false) :
    (remain multi hsent).Perm (hit :: remain multi (after_hit multi hsent hit at_)) := by
  obtain ⟨ahead, behind, rfl, herase, hset⟩ := exists_split hat
  cases multi with
  | true =>
    simp only [remain, after_hit, if_true, hset, List.filter_append, List.filter_cons, hopen]
    exact List.perm_middle
  | false =>
    simp only [remain, after_hit, Bool.false_eq_true, if_false, herase]
    exact List.perm_middle

/-- A further answer changes nothing of it. -/
theorem remain_after_further (hmulti : multi = true) (hdone : hit.answered = true) :
    remain multi (after_hit multi hsent hit at_) = remain multi hsent := by
  obtain ⟨ahead, behind, rfl, -, hset⟩ := exists_split hat
  simp [remain, after_hit, hmulti, hset, hdone]

theorem mem_after_hit {e : Sent P} (he : e ∈ after_hit multi hsent hit at_) :
    e ∈ hsent ∨ e = { hit with answered := true } := by
  obtain ⟨ahead, behind, rfl, herase, hset⟩ := exists_split hat
  cases multi with
  | true =>
    simp only [after_hit, if_true, hset, List.mem_append, List.mem_cons] at he ⊢
    tauto
  | false =>
    simp only [after_hit, Bool.false_eq_true, if_false, herase, List.mem_append, List.mem_cons] at he ⊢
    tauto

end AfterHit

/-- What a round has done with its packets: those put down as sent, those served, each once and in the
order of their first answers, and the answers. -/
structure Ledger (multi : Bool) (tobesent : List P) (ans₀ : List (P × R)) (nbrecv₀ : ℕ)
    (events : List (Event R)) (s : State P R) (origin served : List P) (new : List (P × R)) : Prop where
  queued : tobesent = origin ++ s.sender.todo
  kept : (origin.map W.on_wire).Perm (served ++ (remain multi s.handler.hsent).map (·.pkt))
  count : s.handler.noans = served.length
  ans : s.handler.ans = ans₀ ++ new
  served_iff (p : P) : p ∈ served ↔ ∃ r, (p, r) ∈ new
  once : multi = false → new.map (·.1) = served
  right : ∀ x ∈ new, W.Hits (Sent.new W x.1) x.2
  made : ∀ e ∈ s.handler.hsent, e.frame = W.octets e.pkt ∧ e.link = W.link e.pkt
  waits : multi = false → ∀ e ∈ s.handler.hsent, e.answered = false
  was_served : ∀ e ∈ s.handler.hsent, e.answered = true → e.pkt ∈ served
  counted : s.handler.nbrecv + new.length = nbrecv₀ + (received events).length
  ordered : (new.map (·.2)).Sublist (received events)

variable {W} {multi first : Bool} {tobesent : List P} {ans₀ : List (P × R)} {nbrecv₀ : ℕ}

theorem Ledger.start : Ledger W multi tobesent ans₀ nbrecv₀ [] (.start tobesent ans₀ nbrecv₀) [] [] [] := by
  constructor <;> simp [State.start, remain, received]

section Step

variable {events : List (Event R)} {s s' : State P R} {origin served : List P} {new : List (P × R)}

/-- A step that leaves the packets and the answers alone. -/
theorem Ledger.congr (h : Ledger W multi tobesent ans₀ nbrecv₀ events s origin served new) {e : Event R}
    (htodo : s'.sender.todo = s.sender.todo) (hhsent : s'.handler.hsent = s.handler.hsent)
    (hans : s'.handler.ans = s.handler.ans) (hnoans : s'.handler.noans = s.handler.noans)
    (hnbrecv : s'.handler.nbrecv = s.handler.nbrecv) (he : received [e] = []) :
    Ledger W multi tobesent ans₀ nbrecv₀ (events ++ [e]) s' origin served new := by
  have hreceived : received (events ++ [e]) = received events := by
    rw [received, List.filterMap_append]
    exact (congrArg (received events ++ ·) he).trans (List.append_nil _)
  obtain ⟨h1, h2, h3, h4, h5, h6, h7, h8, h9, h10, h11, h12⟩ := h
  constructor <;> (try simp only [htodo, hhsent, hans, hnoans, hnbrecv, hreceived]) <;> assumption

/-- The next packet is put down. -/
theorem Ledger.record (h : Ledger W multi tobesent ans₀ nbrecv₀ events s origin served new) {p : P}
    {rest : List P} (htodo : s.sender.todo = p :: rest) (phase : Phase) :
    Ledger W multi tobesent ans₀ nbrecv₀ (events ++ [.record])
      { handler := { s.handler with hsent := s.handler.hsent ++ [Sent.new W (W.on_wire p)] }
        sender := { s.sender with todo := rest, phase := phase } } (origin ++ [p]) served new := by
  -- What the thread still has to answer grows by the packet just recorded, in either mode.
  have hremain : remain multi (s.handler.hsent ++ [Sent.new W (W.on_wire p)]) =
      remain multi s.handler.hsent ++ [Sent.new W (W.on_wire p)] := by
    cases multi with
    | true => simp [remain, Sent.new]
    | false => simp [remain]
  have hreceived : received (events ++ [Event.record]) = received events := by simp [received]
  refine ⟨?_, ?_, h.count, h.ans, h.served_iff, h.once, h.right, ?_, ?_, ?_, ?_, ?_⟩
  · rw [h.queued, htodo, List.append_assoc, List.singleton_append]
  · rw [hremain, List.map_append, List.map_append, ← List.append_assoc]
    exact h.kept.append_right _
  -- The new entry was made from its packet and is not answered; the old ones keep what held of
  -- them.
  · rintro e he
    rcases List.mem_append.1 he with he | he
    · exact h.made e he
    · rw [List.mem_singleton.1 he]
      exact ⟨rfl, rfl⟩
  · intro hmulti e he
    rcases List.mem_append.1 he with he | he
    · exact h.waits hmulti e he
    · rw [List.mem_singleton.1 he]
      rfl
  · intro e he hans
    rcases List.mem_append.1 he with he | he
    · exact h.was_served e he hans
    · rw [List.mem_singleton.1 he] at hans
      cases hans
  · rw [hreceived]
    exact h.counted
  · rw [hreceived]
    exact h.ordered

theorem received_append (events : List (Event R)) (r : R) :
    received (events ++ [.receive r]) = received events ++ [r] := by
  simp [received]

/-- A packet comes in. -/
theorem Ledger.receive (h : Ledger W multi tobesent ans₀ nbrecv₀ events s origin served new) (r : R) :
    ∃ served' new', Ledger W multi tobesent ans₀ nbrecv₀ (events ++ [.receive r])
      { s with handler := _process_packet W multi s.handler r } origin served' new' := by
  obtain ⟨hsome, -⟩ := @match_spec P R W multi s.handler.hsent r
  unfold _process_packet
  split
  · rename_i hit at_ hmatch
    obtain ⟨hat, hopen, hhits⟩ : s.handler.hsent[at_]? = some hit ∧
        (multi = true ∨ hit.answered = false) ∧ W.Hits hit r := hsome (hit, at_) hmatch
    have hmem : hit ∈ s.handler.hsent := List.mem_of_getElem? hat
    have hright : W.Hits (Sent.new W hit.pkt) r := by
      obtain ⟨hframe, hlink⟩ := h.made hit hmem
      simpa only [Wire.Hits, Sent.new, hframe, hlink] using hhits
    have hmade : ∀ e ∈ after_hit multi s.handler.hsent hit at_,
        e.frame = W.octets e.pkt ∧ e.link = W.link e.pkt := by
      intro e he
      rcases mem_after_hit hat he with he | rfl
      · exact h.made e he
      · exact h.made hit hmem
    have hserves : ∀ p, (∃ r', (p, r') ∈ new ++ [(hit.pkt, r)]) ↔ p ∈ served ∨ p = hit.pkt := by
      intro p
      simp [h.served_iff, exists_or]
    have hordered : ((new ++ [(hit.pkt, r)]).map (·.2)).Sublist (received (events ++ [.receive r])) := by
      rw [received_append, List.map_append]
      exact h.ordered.append (List.Sublist.refl _)
    have hrights : ∀ x ∈ new ++ [(hit.pkt, r)], W.Hits (Sent.new W x.1) x.2 := by
      intro x hx
      rcases List.mem_append.1 hx with hx | hx
      · exact h.right x hx
      · rw [List.mem_singleton.1 hx]
        exact hright
    have hcounted : s.handler.nbrecv + (new ++ [(hit.pkt, r)]).length =
        nbrecv₀ + (received (events ++ [.receive r])).length := by
      have hbefore := h.counted
      simp only [received_append, List.length_append, List.length_singleton]
      omega
    by_cases hdone : hit.answered = true
    · -- a further answer: the packet was served before, and only `multi` lets it wait on
      have hmulti : multi = true := hopen.resolve_right (by simp [hdone])
      have hserved := h.was_served hit hmem hdone
      refine ⟨served, new ++ [(hit.pkt, r)], h.queued, ?_, ?_, ?_, ?_, ?_, hrights, hmade, ?_, ?_, hcounted,
        hordered⟩
      · have hsame := remain_after_further hat hmulti hdone
        rw [after_hit] at hsame
        rw [hsame]
        exact h.kept
      · simpa [hdone] using h.count
      · rw [h.ans, List.append_assoc]
      · intro p
        rw [hserves]
        exact ⟨.inl, fun hp => hp.elim id fun heq => heq ▸ hserved⟩
      · simp [hmulti]
      · simp [hmulti]
      · intro e he hans
        rcases mem_after_hit hat he with he | rfl
        · exact h.was_served e he hans
        · exact hserved
    -- its first answer: from here on the packet counts as served
    · rw [Bool.not_eq_true] at hdone
      refine ⟨served ++ [hit.pkt], new ++ [(hit.pkt, r)], h.queued, ?_, ?_, ?_, ?_, ?_, hrights, hmade, ?_, ?_,
        hcounted, hordered⟩
      · have hfirst : (remain multi s.handler.hsent).Perm
            (hit :: remain multi (after_hit multi s.handler.hsent hit at_)) := remain_after_first hat hdone
        rw [List.append_assoc]
        exact h.kept.trans ((hfirst.map (·.pkt)).append_left served)
      · simpa [hdone] using h.count
      · rw [h.ans, List.append_assoc]
      · intro p
        rw [hserves, List.mem_append, List.mem_singleton]
      · intro hmulti
        rw [List.map_append, h.once hmulti]
        rfl
      · intro hmulti e he
        simp only [hmulti, Bool.false_eq_true, if_false] at he
        exact h.waits hmulti e (List.mem_of_mem_eraseIdx he)
      · intro e he hans
        rcases mem_after_hit hat he with he | rfl
        · exact List.mem_append_left _ (h.was_served e he hans)
        · exact List.mem_append_right _ (List.mem_singleton_self _)
  -- it answers nothing that waits, and is only counted
  · refine ⟨served, new, h.queued, h.kept, h.count, h.ans, h.served_iff, h.once, h.right, h.made, h.waits,
      h.was_served, ?_, ?_⟩
    · have hbefore := h.counted
      simp only [received_append, List.length_append, List.length_singleton]
      omega
    · rw [received_append]
      exact h.ordered.trans (List.sublist_append_left _ _)

end Step

/-! ## How far the sender is -/

def Event.fails : Event R → Bool
  | .failed => true
  | _ => false

/-- Where the sender stands once `n` packets were put down, and why it left packets out, if it did. -/
structure Paced (failed : Bool) (s : State P R) (n : ℕ) : Prop where
  ready : s.sender.phase = .ready → n = s.sender.i
  sending : s.sender.phase = .sending → n = s.sender.i + 1
  gone : s.sender.phase = .leaving ∨ s.sender.phase = .done → n = s.sender.i ∨ failed = true
  send_done : s.handler.send_done = true ↔ s.sender.phase = .done
  notans : s.sender.phase = .done → s.handler.notans = s.sender.i
  why : s.sender.phase = .leaving ∨ s.sender.phase = .done →
    s.sender.todo = [] ∨ s.handler.breakout = true ∨ failed = true

theorem Paced.unfinished {failed : Bool} {s : State P R} {n : ℕ} (h : Paced failed s n)
    (hphase : s.sender.phase ≠ .done) : s.handler.send_done = false := by
  rwa [← Bool.not_eq_true, h.send_done]

theorem Paced.start : Paced false (.start tobesent ans₀ nbrecv₀ : State P R) 0 := by
  constructor <;> simp [State.start]

section Step

variable {events : List (Event R)} {s s' : State P R} {origin served : List P} {new : List (P × R)}
  {failed : Bool}

theorem process_packet_frame (h : Handler P R) (r : R) :
    (_process_packet W multi h r).send_done = h.send_done ∧ (_process_packet W multi h r).notans = h.notans ∧
      (_process_packet W multi h r).breakout = h.breakout := by
  unfold _process_packet
  split <;> exact ⟨rfl, rfl, rfl⟩

theorem Paced.receive {n : ℕ} (h : Paced failed s n) (r : R) :
    Paced failed { s with handler := _process_packet W multi s.handler r } n := by
  obtain ⟨hdone, hnotans, hbreakout⟩ := @process_packet_frame P R W multi s.handler r
  exact ⟨h.ready, h.sending, h.gone, by simpa only [hdone] using h.send_done,
    by simpa only [hnotans] using h.notans, by simpa only [hbreakout] using h.why⟩

/-- **One step of either thread keeps the ledger.** -/
theorem Ledger.step (h : Ledger W multi tobesent ans₀ nbrecv₀ events s origin served new)
    (hp : Paced failed s origin.length) {e : Event R} (hs : step W multi first s e = some s') :
    ∃ origin' served' new',
      Ledger W multi tobesent ans₀ nbrecv₀ (events ++ [e]) s' origin' served' new' ∧
        Paced (failed || e.fails) s' origin'.length := by
  cases e with
  | record =>
    simp only [Answers.step] at hs
    split at hs
    · rename_i p rest hphase htodo
      obtain rfl := Option.some.inj hs
      have hi := hp.ready hphase
      have hdone := hp.unfinished (by simp [hphase])
      exact ⟨_, _, _, h.record htodo .sending,
        ⟨by simp, by simp [hi], by simp, by simp [hdone], by simp, by simp⟩⟩
    · cases hs
  | sent =>
    simp only [Answers.step] at hs
    split at hs
    · rename_i hphase
      obtain rfl := Option.some.inj hs
      refine ⟨_, _, _, h.congr rfl rfl rfl rfl rfl rfl, ?_⟩
      have hi := hp.sending hphase
      have hdone := hp.unfinished (by simp [hphase])
      -- the loop is left where something has ended the wait
      cases hbreakout : s.handler.breakout with
      | true => exact ⟨by simp, by simp, by simp [hi], by simp [hdone], by simp, by simp [hbreakout]⟩
      | false => exact ⟨by simp [hi], by simp, by simp, by simp [hdone], by simp, by simp⟩
    · cases hs
  | failed =>
    simp only [Answers.step] at hs
    split at hs
    · rename_i hphase
      obtain rfl := Option.some.inj hs
      refine ⟨_, _, _, h.congr rfl rfl rfl rfl rfl rfl, ?_⟩
      have hdone := hp.unfinished (by rcases hphase with hphase | hphase <;> simp [hphase])
      exact ⟨by simp, by simp, by simp [Event.fails], by simp [hdone], by simp, by simp [Event.fails]⟩
    · cases hs
  | finish =>
    simp only [Answers.step] at hs
    split at hs
    · rename_i hphase
      obtain rfl := Option.some.inj hs
      refine ⟨_, _, _, h.congr rfl rfl rfl rfl rfl rfl, ?_⟩
      rcases hphase with hphase | ⟨hphase, htodo⟩
      · have hgone := hp.gone (.inl hphase)
        have hwhy := hp.why (.inl hphase)
        exact ⟨by simp, by simp, by simpa [Event.fails] using hgone, by simp, by simp,
          by simpa [Event.fails] using hwhy⟩
      · exact ⟨by simp, by simp, by simp [hp.ready hphase], by simp, by simp, by simp [htodo]⟩
    · cases hs
  | receive r =>
    obtain rfl := Option.some.inj hs
    obtain ⟨served', new', hledger⟩ := h.receive r
    exact ⟨_, _, _, hledger, by simpa [Event.fails] using hp.receive r⟩
  | check =>
    obtain rfl := Option.some.inj hs
    refine ⟨_, _, _, h.congr rfl rfl rfl rfl rfl rfl, ?_⟩
    simp only [Event.fails, Bool.or_false]
    refine ⟨hp.ready, hp.sending, hp.gone, hp.send_done, hp.notans, fun hgone => ?_⟩
    rcases hp.why hgone with htodo | hbreakout | hfailed
    · exact .inl htodo
    · exact .inr (.inl (by simp [hbreakout]))
    · exact .inr (.inr hfailed)
  | stop =>
    obtain rfl := Option.some.inj hs
    refine ⟨_, _, _, h.congr rfl rfl rfl rfl rfl rfl, ?_⟩
    simp only [Event.fails, Bool.or_false]
    exact ⟨hp.ready, hp.sending, hp.gone, hp.send_done, hp.notans, fun _ => .inr (.inl rfl)⟩

/-- A run of either thread keeps it. -/
theorem Ledger.steps (h : Ledger W multi tobesent ans₀ nbrecv₀ events s origin served new)
    (hp : Paced failed s origin.length) {more : List (Event R)} (hs : steps W multi first s more = some s') :
    ∃ origin' served' new',
      Ledger W multi tobesent ans₀ nbrecv₀ (events ++ more) s' origin' served' new' ∧
        Paced (failed || more.any Event.fails) s' origin'.length := by
  induction more generalizing events s origin served new failed with
  | nil =>
    obtain rfl := Option.some.inj hs
    exact ⟨origin, served, new, by simpa using h, by simpa using hp⟩
  | cons e more ih =>
    obtain ⟨next, hnext, hrest⟩ := Option.bind_eq_some_iff.1 hs
    obtain ⟨origin', served', new', hledger, hpaced⟩ := h.step hp hnext
    obtain ⟨origin'', served'', new'', hledger', hpaced'⟩ := ih hledger hpaced hrest
    refine ⟨origin'', served'', new'', by simpa using hledger', ?_⟩
    simpa [Bool.or_assoc] using hpaced'

end Step

/-- **The ledger of a round**, whatever the threads did, in whatever order. -/
theorem round_ledger {events : List (Event R)} {s : State P R}
    (h : steps W multi first (.start tobesent ans₀ nbrecv₀) events = some s) :
    ∃ origin served new, Ledger W multi tobesent ans₀ nbrecv₀ events s origin served new ∧
      Paced (events.any Event.fails) s origin.length := by
  obtain ⟨origin, served, new, hledger, hpaced⟩ := Ledger.start.steps Paced.start h
  exact ⟨origin, served, new, by simpa using hledger, by simpa using hpaced⟩

/-- Between two replies `_settled` says that the sending is over and `hsent` is empty, where no send
failed: what was put down is what was served and what `hsent` keeps. -/
theorem settled_between {events : List (Event R)} {s : State P R}
    (h : steps W false false (.start tobesent ans₀ nbrecv₀) events = some s)
    (hfails : events.any Event.fails = false) :
    _settled false false s.handler = true ↔ s.sender.phase = .done ∧ s.handler.hsent = [] := by
  obtain ⟨origin, served, new, hledger, hpaced⟩ := round_ledger h
  have hlen : origin.length = served.length + s.handler.hsent.length := by
    have hkept := hledger.kept.length_eq
    simpa [remain] using hkept
  simp only [_settled, Bool.not_false, Bool.and_true, Bool.false_and, Bool.or_false, Bool.and_eq_true,
    decide_eq_true_eq, hpaced.send_done, hledger.count]
  refine and_congr_right fun hdone => ?_
  have hsent : origin.length = s.sender.i := (hpaced.gone (.inr hdone)).resolve_right (by simp [hfails])
  rw [hpaced.notans hdone, ← hsent, hlen, ← List.length_eq_zero_iff]
  omega

/-- Bare IPv4 packets, sent as they are. -/
def ip_wire : Wire Bytes Bytes where
  octets := id
  link := fun _ => "IP"
  frame_at := fun r _ => some r
  proto_by_name := fun name => if name = "IP" then some .Ipv4 else none
  on_wire := id
  L := Layers.core
  checkIPaddr := true

/-! ## Rounds -/

/-- The packets a round leaves to be sent again. -/
def State.remain (multi : Bool) (s : State P R) : List P := (Answers.remain multi s.handler.hsent).map (·.pkt)

/-- The sending is over, or never began. -/
def State.Ended (s : State P R) (tobesent : List P) : Prop :=
  s.sender.phase = .done ∨ s.sender = ⟨tobesent, 0, .ready⟩

/-- A round as it went. -/
structure Log (P R : Type*) where
  tobesent : List P
  events : List (Event R)
  state : State P R

/-- `while retry >= 0`, from a round on that has this to send, these answers and this many strays. -/
inductive Rounds (W : Wire P R) (multi first : Bool) (autostop : ℤ) :
    ℤ → List P → List P → List (P × R) → ℕ → List (Log P R) → List P → List (P × R) → ℕ → Prop
  | done {retry : ℤ} {tobesent left : List P} {ans : List (P × R)} {nbrecv : ℕ} (h : retry < 0) :
    Rounds W multi first autostop retry tobesent left ans nbrecv [] left ans nbrecv
  | last {retry : ℤ} {tobesent left : List P} {ans : List (P × R)} {nbrecv : ℕ} {events : List (Event R)}
      {s : State P R} (h : 0 ≤ retry)
      (hsteps : steps W multi first (.start tobesent ans nbrecv) events = some s)
      (hended : s.Ended tobesent) (hnone : s.remain multi = []) :
    Rounds W multi first autostop retry tobesent left ans nbrecv [⟨tobesent, events, s⟩] []
      s.handler.ans s.handler.nbrecv
  | again {retry : ℤ} {tobesent left left' : List P} {ans ans' : List (P × R)} {nbrecv nbrecv' : ℕ}
      {events : List (Event R)} {s : State P R} {logs : List (Log P R)} (h : 0 ≤ retry)
      (hsteps : steps W multi first (.start tobesent ans nbrecv) events = some s)
      (hended : s.Ended tobesent) (hsome : s.remain multi ≠ [])
      (hmore : Rounds W multi first autostop
        ((if autostop ≠ 0 ∧ (s.remain multi).length ≠ tobesent.length then autostop else retry) - 1)
        (s.remain multi) (s.remain multi) s.handler.ans s.handler.nbrecv logs left' ans' nbrecv') :
    Rounds W multi first autostop retry tobesent left ans nbrecv (⟨tobesent, events, s⟩ :: logs) left'
      ans' nbrecv'

/-- The rounds of a call so far: the last may be under way, the others ended and left something to send
again. -/
inductive Begun (W : Wire P R) (multi first : Bool) (autostop : ℤ) :
    ℤ → List P → List (P × R) → ℕ → List (Log P R) → Prop
  | none {retry : ℤ} {tobesent : List P} {ans : List (P × R)} {nbrecv : ℕ} :
    Begun W multi first autostop retry tobesent ans nbrecv []
  | last {retry : ℤ} {tobesent : List P} {ans : List (P × R)} {nbrecv : ℕ} {events : List (Event R)}
      {s : State P R} (h : 0 ≤ retry)
      (hsteps : steps W multi first (.start tobesent ans nbrecv) events = some s) :
    Begun W multi first autostop retry tobesent ans nbrecv [⟨tobesent, events, s⟩]
  | again {retry : ℤ} {tobesent : List P} {ans : List (P × R)} {nbrecv : ℕ} {events : List (Event R)}
      {s : State P R} {logs : List (Log P R)} (h : 0 ≤ retry)
      (hsteps : steps W multi first (.start tobesent ans nbrecv) events = some s)
      (hended : s.Ended tobesent) (hsome : s.remain multi ≠ [])
      (hmore : Begun W multi first autostop
        ((if autostop ≠ 0 ∧ (s.remain multi).length ≠ tobesent.length then autostop else retry) - 1)
        (s.remain multi) s.handler.ans s.handler.nbrecv logs) :
    Begun W multi first autostop retry tobesent ans nbrecv (⟨tobesent, events, s⟩ :: logs)

/-- A call of `sndrcv`: its rounds, what it answered, what it left and how many strays it took. -/
def sndrcv (W : Wire P R) (multi first : Bool) (retry : ℤ) (pkts : List P) (logs : List (Log P R))
    (ans : List (P × R)) (unans : List P) (nbrecv : ℕ) : Prop :=
  Rounds W multi first (if retry < 0 then -retry else 0) |retry| pkts [] [] 0 logs unans ans nbrecv

/-- A call of `sndrcv` that may not have come back, and its rounds so far. -/
def sndrcv_begun (W : Wire P R) (multi first : Bool) (retry : ℤ) (pkts : List P) (logs : List (Log P R)) :
    Prop :=
  Begun W multi first (if retry < 0 then -retry else 0) |retry| pkts [] 0 logs

/-- What was taken in over these rounds. -/
def Log.received (logs : List (Log P R)) : List R := logs.flatMap fun log => Answers.received log.events

/-- What these rounds never came to send. -/
def Log.unsent (logs : List (Log P R)) : List P := logs.flatMap fun log => log.state.sender.todo

/-- What a round was to send it served, left, or never came to. -/
theorem Ledger.labelled {ι : Type*} {label : P → ι} (hlabel : ∀ p, label (W.on_wire p) = label p)
    {events : List (Event R)} {s : State P R} {origin served : List P} {new : List (P × R)}
    (h : Ledger W multi tobesent ans₀ nbrecv₀ events s origin served new) :
    (tobesent.map label).Perm ((served ++ s.remain multi ++ s.sender.todo).map label) := by
  have hwire : (origin.map W.on_wire).map label = origin.map label := by
    simp [Function.comp_def, hlabel]
  rw [h.queued, List.map_append, List.map_append, ← hwire]
  exact (h.kept.map label).append_right _

/-- The ledger of a whole call, by induction on its rounds: the packets to be sent are those served,
those unanswered and those never sent, up to order. -/
theorem Rounds.accounts {ι : Type*} {label : P → ι} (hlabel : ∀ p, label (W.on_wire p) = label p)
    {autostop retry : ℤ} {left unans : List P} {ans : List (P × R)} {nbrecv : ℕ} {logs : List (Log P R)}
    (h : Rounds W multi first autostop retry tobesent left ans₀ nbrecv₀ logs unans ans nbrecv)
    (hleft : retry < 0 → left = tobesent) :
    ∃ served new, ans = ans₀ ++ new ∧
      (tobesent.map label).Perm ((served ++ unans ++ Log.unsent logs).map label) ∧
      (∀ p, p ∈ served ↔ ∃ r, (p, r) ∈ new) ∧ (multi = false → new.map (·.1) = served) ∧
      (∀ x ∈ new, W.Hits (Sent.new W x.1) x.2) ∧ (new.map (·.2)).Sublist (Log.received logs) ∧
      nbrecv + new.length = nbrecv₀ + (Log.received logs).length := by
  induction h with
  | @done retry tobesent left ans nbrecv hneg =>
    obtain rfl := hleft hneg
    exact ⟨[], [], by simp [Log.unsent, Log.received]⟩
  | @last retry tobesent left ans nbrecv events s hpos hsteps hended hnone =>
    obtain ⟨origin, served, new, hledger, -⟩ := round_ledger hsteps
    refine ⟨served, new, hledger.ans, ?_, hledger.served_iff, hledger.once, hledger.right, ?_, ?_⟩
    · simpa [Log.unsent, hnone] using hledger.labelled hlabel
    · simpa [Log.received] using hledger.ordered
    · simpa [Log.received] using hledger.counted
  | @again retry tobesent left left' ans ans' nbrecv nbrecv' events s logs hpos hsteps hended hsome hmore ih =>
    obtain ⟨origin, served, new, hledger, -⟩ := round_ledger hsteps
    obtain ⟨served', new', rfl, hperm, hserved, honce, hright, hordered, hcounted⟩ := ih fun _ => rfl
    refine ⟨served ++ served', new ++ new', by rw [hledger.ans, List.append_assoc], ?_, ?_, ?_, ?_, ?_, ?_⟩
    -- what this round left is what the later rounds were handed
    · have hround := Multiset.coe_eq_coe.2 (hledger.labelled hlabel)
      have hrest := Multiset.coe_eq_coe.2 hperm
      have hunsent : Log.unsent (⟨tobesent, events, s⟩ :: logs) = s.sender.todo ++ Log.unsent logs := by
        simp [Log.unsent]
      rw [← Multiset.coe_eq_coe, hround, hunsent]
      simp only [List.map_append, ← Multiset.coe_add] at hrest ⊢
      rw [hrest]
      abel
    · intro p
      simp [hledger.served_iff, hserved, exists_or]
    · intro hmulti
      rw [List.map_append, hledger.once hmulti, honce hmulti]
    · intro x hx
      exact (List.mem_append.1 hx).elim (hledger.right x) (hright x)
    · rw [List.map_append]
      exact hledger.ordered.append hordered
    · have hbefore := hledger.counted
      have hreceived : (Log.received (⟨tobesent, events, s⟩ :: logs)).length =
          (Answers.received events).length + (Log.received logs).length := by
        simp [Log.received]
      rw [hreceived, List.length_append]
      omega

/-- **Nothing that is sent is lost, and nothing is answered twice**: over all rounds of a call of `sndrcv`
and all interleavings in them, what was handed in is what was served, what is given back as unanswered and
what a broken-off round never came to send; the answers are of what was served, each reply answers its
packet, and every packet taken in is an answer or a stray. `label` is anything the wire form keeps. -/
theorem sndrcv_accounts {ι : Type*} {label : P → ι} (hlabel : ∀ p, label (W.on_wire p) = label p) {retry : ℤ}
    {pkts unans : List P} {ans : List (P × R)} {nbrecv : ℕ} {logs : List (Log P R)}
    (h : sndrcv W multi first retry pkts logs ans unans nbrecv) :
    ∃ served, (pkts.map label).Perm ((served ++ unans ++ Log.unsent logs).map label) ∧
      (∀ p, p ∈ served ↔ ∃ r, (p, r) ∈ ans) ∧ (multi = false → ans.map (·.1) = served) ∧
      (∀ x ∈ ans, W.Hits (Sent.new W x.1) x.2) ∧ (ans.map (·.2)).Sublist (Log.received logs) ∧
      nbrecv + ans.length = (Log.received logs).length := by
  have hretry : ¬|retry| < 0 := not_lt.2 (abs_nonneg retry)
  obtain ⟨served, new, rfl, hperm, hserved, honce, hright, hordered, hcounted⟩ :=
    Rounds.accounts hlabel h fun hneg => absurd hneg hretry
  exact ⟨served, hperm, hserved, honce, hright, hordered, by simpa using hcounted⟩

/-- The packets of two connections, and an answer to the first. -/
def first_of_two : Bytes := (segment 3 4 5 6).buf
def second_of_two : Bytes := (segment 3 4 7 8).buf
def answer_to_first : Bytes := (segment 4 3 6 5).buf

/-- Both are sent, and the first is answered. -/
def answered_log : Log Bytes Bytes where
  tobesent := [first_of_two, second_of_two]
  events := [.record, .sent, .record, .receive answer_to_first, .check, .sent, .stop, .finish]
  state := ⟨⟨[(first_of_two, answer_to_first)], 0, [Sent.new ip_wire second_of_two], 2, 1, true, true⟩,
    ⟨[], 2, .done⟩⟩

/-- The second is sent again, and the answer to the first comes again: nobody waits for it. -/
def resent_log : Log Bytes Bytes where
  tobesent := [second_of_two]
  events := [.record, .sent, .receive answer_to_first, .stop, .finish]
  state := ⟨⟨[(first_of_two, answer_to_first)], 1, [Sent.new ip_wire second_of_two], 1, 0, true, true⟩,
    ⟨[], 1, .done⟩⟩

theorem sndrcv_two : sndrcv ip_wire false false 1 [first_of_two, second_of_two] [answered_log, resent_log]
    [(first_of_two, answer_to_first)] [second_of_two] 1 :=
  .again (abs_nonneg 1) rfl (.inl rfl) (List.cons_ne_nil _ _)
    (.again (by simp) rfl (.inl rfl) (List.cons_ne_nil _ _) (.done (by simp)))

theorem sndrcv_accounts_two : ∃ served : List Bytes,
    ([first_of_two, second_of_two].map id).Perm
        ((served ++ [second_of_two] ++ Log.unsent [answered_log, resent_log]).map id) ∧
      (∀ p, p ∈ served ↔ ∃ r, (p, r) ∈ [(first_of_two, answer_to_first)]) ∧
      1 + [(first_of_two, answer_to_first)].length = (Log.received [answered_log, resent_log]).length := by
  obtain ⟨served, hperm, hserved, -, -, -, hcounted⟩ :=
    sndrcv_accounts (fun p => rfl : ∀ p, id (ip_wire.on_wire p) = id p) sndrcv_two
  exact ⟨served, hperm, hserved, hcounted⟩

/-! ## How many rounds -/

/-- A round that served and dropped nothing. -/
def Log.Idle (multi : Bool) (log : Log P R) : Prop := (log.state.remain multi).length = log.tobesent.length

theorem Rounds.begun {autostop retry : ℤ} {left unans : List P} {ans : List (P × R)} {nbrecv : ℕ}
    {logs : List (Log P R)}
    (h : Rounds W multi first autostop retry tobesent left ans₀ nbrecv₀ logs unans ans nbrecv) :
    Begun W multi first autostop retry tobesent ans₀ nbrecv₀ logs := by
  induction h with
  | done => exact .none
  | last h hsteps => exact .last h hsteps
  | again h hsteps hended hsome _ ih => exact .again h hsteps hended hsome ih

/-- A round leaves no more than it was given. -/
theorem remain_le {events : List (Event R)} {s : State P R}
    (h : steps W multi first (.start tobesent ans₀ nbrecv₀) events = some s) :
    (s.remain multi).length ≤ tobesent.length := by
  obtain ⟨origin, served, new, hledger, -⟩ := round_ledger h
  have hall := (hledger.labelled fun _ => rfl : (tobesent.map fun _ => ()).Perm _).length_eq
  simp only [List.length_map, List.length_append] at hall
  omega

/-- **The rounds begun, whether or not the last of them ends.** A round that serves or drops something
sets the count back, but has then one packet less to send; any other uses up one retry. -/
theorem Begun.bounded {autostop retry : ℤ} {logs : List (Log P R)}
    (h : Begun W multi first autostop retry tobesent ans₀ nbrecv₀ logs) (hretry : -1 ≤ retry)
    (hauto : 0 ≤ autostop) (hle : autostop = 0 ∨ retry ≤ autostop) :
    (logs.length : ℤ) ≤ retry + 1 + autostop * tobesent.length := by
  induction h with
  | @none retry tobesent =>
    have hroom := mul_nonneg hauto (Int.natCast_nonneg tobesent.length)
    rw [List.length_nil, Nat.cast_zero]
    omega
  | @last retry tobesent =>
    have hroom := mul_nonneg hauto (Int.natCast_nonneg tobesent.length)
    rw [List.length_singleton, Nat.cast_one]
    omega
  | @again retry tobesent ans nbrecv events s logs hpos hsteps hended hsome hmore ih =>
    have hless := remain_le hsteps
    rw [List.length_cons, Nat.cast_succ]
    by_cases hprogress : autostop ≠ 0 ∧ (s.remain multi).length ≠ tobesent.length
    -- the count starts over, with at least one packet less to send
    · rw [if_pos hprogress] at ih
      have hbound := ih (by omega) (.inr (by omega))
      have hfewer : ((s.remain multi).length : ℤ) + 1 ≤ tobesent.length := by omega
      have hroom := mul_le_mul_of_nonneg_left hfewer hauto
      rw [mul_add, mul_one] at hroom
      omega
    -- an idle round uses up one retry
    · rw [if_neg hprogress] at ih
      have hbound := ih (by omega) (hle.imp id (by omega))
      have hfewer : ((s.remain multi).length : ℤ) ≤ tobesent.length := by omega
      have hroom := mul_le_mul_of_nonneg_left hfewer hauto
      omega

/-- **What a call gave up after**: every retry there was, or the whole count of them since the last round
that served or dropped something. -/
theorem Rounds.exhausted {autostop retry : ℤ} {left unans : List P} {ans : List (P × R)} {nbrecv : ℕ}
    {logs : List (Log P R)}
    (h : Rounds W multi first autostop retry tobesent left ans₀ nbrecv₀ logs unans ans nbrecv)
    (hretry : -1 ≤ retry) (hauto : 0 ≤ autostop) (hunans : unans ≠ []) :
    ∃ before idle, logs = before ++ idle ∧ (autostop ≠ 0 → ∀ log ∈ idle, log.Idle multi) ∧
      (before = [] ∧ (idle.length : ℤ) = retry + 1 ∨ autostop ≠ 0 ∧ (idle.length : ℤ) = autostop) := by
  induction h with
  | @done retry tobesent left ans nbrecv hneg =>
    have hzero : retry + 1 = 0 := by omega
    exact ⟨[], [], rfl, by simp, .inl ⟨rfl, by simpa using hzero.symm⟩⟩
  | last => exact absurd rfl hunans
  | @again retry tobesent left left' ans ans' nbrecv nbrecv' events s logs hpos hsteps hended hsome hmore ih =>
    by_cases hprogress : autostop ≠ 0 ∧ (s.remain multi).length ≠ tobesent.length
    -- the count started over behind this round
    · rw [if_pos hprogress] at ih
      obtain ⟨before, idle, rfl, hall, hcount⟩ := ih (by omega) hunans
      refine ⟨⟨tobesent, events, s⟩ :: before, idle, rfl, hall, .inr ⟨hprogress.1, ?_⟩⟩
      rcases hcount with ⟨-, hcount⟩ | ⟨-, hcount⟩
      all_goals omega
    -- this round is idle itself, and counts with those behind it
    · rw [if_neg hprogress] at ih
      obtain ⟨before, idle, rfl, hall, hcount⟩ := ih (by omega) hunans
      rcases hcount with ⟨rfl, hcount⟩ | hcount
      · refine ⟨[], ⟨tobesent, events, s⟩ :: idle, rfl, fun hauto => ?_, .inl ⟨rfl, ?_⟩⟩
        · refine List.forall_mem_cons.2 ⟨?_, hall hauto⟩
          by_contra hne
          exact hprogress ⟨hauto, hne⟩
        · rw [List.length_cons, Nat.cast_succ]
          omega
      · exact ⟨⟨tobesent, events, s⟩ :: before, idle, rfl, hall, .inr hcount⟩

/-- **How often `sndrcv` sends.** Whether or not the call comes back, it begins no more rounds than one
and `retry` if that is not negative, and no more than a bound in the number of packets if it is. A call
that came back with something unanswered began exactly so many, or, with a negative `retry`, as many in a
row as it says that served nothing and left nothing out. -/
theorem sndrcv_rounds {retry : ℤ} {pkts : List P} :
    (∀ logs : List (Log P R), sndrcv_begun W multi first retry pkts logs →
      (0 ≤ retry → (logs.length : ℤ) ≤ retry + 1) ∧
        (retry < 0 → (logs.length : ℤ) ≤ |retry| + 1 + |retry| * pkts.length)) ∧
    (∀ (logs : List (Log P R)) (ans : List (P × R)) (unans : List P) (nbrecv : ℕ),
      sndrcv W multi first retry pkts logs ans unans nbrecv →
      sndrcv_begun W multi first retry pkts logs ∧
        (unans ≠ [] → (0 ≤ retry → (logs.length : ℤ) = retry + 1) ∧
          (retry < 0 → ∃ before idle, logs = before ++ idle ∧ (∀ log ∈ idle, log.Idle multi) ∧
            |retry| ≤ idle.length))) := by
  -- The budget left by an exhausted call, read off the general bound in the two signs of `retry`.
  have hcount : -1 ≤ |retry| := by
    have habs := abs_nonneg retry
    omega
  constructor
  · intro logs h
    have hbounded := Begun.bounded h hcount
    constructor
    · intro hpos
      simp only [if_neg (not_lt.2 hpos), abs_of_nonneg hpos] at hbounded
      simpa using hbounded le_rfl (.inl trivial)
    · intro hneg
      simp only [if_pos hneg, abs_of_neg hneg] at hbounded ⊢
      exact hbounded (by omega) (.inr le_rfl)
  · intro logs ans unans nbrecv h
    refine ⟨Rounds.begun h, fun hunans => ?_⟩
    have hexhausted := Rounds.exhausted h hcount
    constructor
    · intro hpos
      simp only [if_neg (not_lt.2 hpos), abs_of_nonneg hpos] at hexhausted
      obtain ⟨before, idle, rfl, -, hlength⟩ := hexhausted le_rfl hunans
      rcases hlength with ⟨rfl, hlength⟩ | ⟨hne, -⟩
      · simpa using hlength
      · exact absurd rfl hne
    · intro hneg
      simp only [if_pos hneg, abs_of_neg hneg] at hexhausted ⊢
      obtain ⟨before, idle, rfl, hall, hlength⟩ := hexhausted (by omega) hunans
      refine ⟨before, idle, rfl, hall (by omega), ?_⟩
      rcases hlength with ⟨-, hlength⟩ | ⟨-, hlength⟩
      all_goals omega

/-- One retry, and one packet that nothing answers. -/
theorem sndrcv_rounds_two : (([answered_log, resent_log].length : ℕ) : ℤ) = 1 + 1 := by
  have hrounds : ([second_of_two] ≠ [] → _) := (sndrcv_rounds.2 _ _ _ _ sndrcv_two).2
  exact (hrounds (List.cons_ne_nil _ _)).1 (by decide)

end Wiry.Answers
