/-
When the route cache answers as an empty one would.

The table's own answers are `full_answer` and, for the call that looks a gateway up on
another destination's behalf, `internal_answer`; a cache is coherent where it keeps
`full_answer`'s. Both calls keep their answer under the same key, which is where the two
must agree, and `add` and `delt` look a gateway up after the cache is emptied and before
the table changes, which is where the table must not matter.
-/
import Wiry.Routing.Table

set_option autoImplicit false

namespace Wiry.Routing

variable (h : Host)

/-! ## What a table answers -/

/-- The answer with the gateway's source left alone. -/
def internal_answer (routes : List IPv4Route) (dst : Text) (dev : Option Text) : Option Answer :=
  (select h routes dst dev).map fun ret => ret.getD (no_path h dev)

/-- The answer, its source taken from the gateway where it has none of its own. -/
def full_answer (routes : List IPv4Route) (dst : Text) (dev : Option Text) : Option Answer :=
  (select h routes dst dev).bind fun
    | none => some (no_path h dev)
    | some ret =>
      if ret.addr = ZERO then
        (internal_answer h routes (or_zero ret.gw) none).map fun a => { ret with addr := a.addr }
      else some ret

/-- What the cache of a table may keep. -/
def kept (routes : List IPv4Route) (k : Text × Option Text) : Option Answer :=
  full_answer h routes k.1 k.2

/-- Every answer in the cache is the one the table gives. -/
def Coherent (r : Route) : Prop := Memo.Coherent (kept h r.routes) r.cache

/-- The route selected for `g` has a source of its own, or what is selected for its gateway has
none either. -/
def SelfSourced (routes : List IPv4Route) (g : Text) : Prop :=
  ∀ ret, select h routes g none = some (some ret) → ret.addr = ZERO →
    ∃ next, select h routes (or_zero ret.gw) none = some next ∧ ∀ a ∈ next, a.addr = ZERO

variable {h}

/-- Where a gateway has a source of its own the two calls for it answer alike. -/
theorem SelfSourced.full_eq {routes : List IPv4Route} {g : Text} (hg : SelfSourced h routes g) :
    full_answer h routes g none = internal_answer h routes g none := by
  unfold full_answer internal_answer
  cases hsel : select h routes g none with
  | none => rfl
  | some ret =>
    cases ret with
    | none => rfl
    | some ret =>
      rw [Option.bind_some, Option.map_some, Option.getD_some]
      dsimp only
      split
      · next hzero =>
        obtain ⟨next, hnext, hsource⟩ := hg ret hsel hzero
        have haddr : (next.getD (no_path h none)).addr = ret.addr := by
          rw [hzero]
          cases next with
          | none => rfl
          | some a => exact hsource a rfl
        rw [hnext, Option.map_some, Option.map_some, haddr]
      · rfl

/-! ## Lookups -/

theorem route_with_hit {via : Option (Route → Text → Option Answer × Route)} {r : Route} {dst : Text}
    {dev : Option Text} {a : Answer} (hit : r.cache (or_zero dst, dev) = some a) :
    route_with h via r dst dev = (some a, r) := by
  rw [route_with]
  simp only [hit]

/-- The answer kept under a key that was not in the cache. -/
def keep (r : Route) (dst : Text) (dev : Option Text) (a : Answer) : Route :=
  { r with cache := Memo.insert r.cache (or_zero dst, dev) a }

theorem Coherent.keep {r : Route} (hr : Coherent h r) {dst : Text} {dev : Option Text} {a : Answer}
    (ha : full_answer h r.routes (or_zero dst) dev = some a) : Coherent h (keep r dst dev a) :=
  Memo.Coherent.insert hr ha

/-- The call for a gateway on a cache that has no answer for it. -/
theorem route_internal_miss {r : Route} {g : Text} (miss : r.cache (or_zero g, none) = none) :
    route_internal h r g = (internal_answer h r.routes (or_zero g) none,
      match select h r.routes (or_zero g) none with
      | some (some ret) => keep r g none ret
      | _ => r) := by
  unfold route_internal internal_answer
  rw [route_with]
  simp only [miss]
  cases hsel : select h r.routes (or_zero g) none with
  | none => rfl
  | some ret =>
    cases ret with
    | none => rfl
    | some ret =>
      dsimp only
      split <;> rfl

/-- The call for a gateway whose own source settles the matter. -/
theorem route_internal_spec {r : Route} (hr : Coherent h r) {g : Text}
    (hg : SelfSourced h r.routes (or_zero g)) :
    (route_internal h r g).1 = internal_answer h r.routes (or_zero g) none
      ∧ (route_internal h r g).2.routes = r.routes ∧ Coherent h (route_internal h r g).2 := by
  cases hit : r.cache (or_zero g, none) with
  | some a =>
    unfold route_internal
    rw [route_with_hit hit]
    exact ⟨(hr _ a hit).symm.trans hg.full_eq, rfl, hr⟩
  | none =>
    rw [route_internal_miss hit]
    refine ⟨rfl, ?_⟩
    dsimp only
    split
    · next ret hsel =>
      refine ⟨rfl, hr.keep ?_⟩
      rw [hg.full_eq, internal_answer, hsel]
      rfl
    · exact ⟨rfl, hr⟩

/-- A destination whose route has no source of its own has a gateway whose route has one. -/
def LookupOk (h : Host) (routes : List IPv4Route) (dst : Text) (dev : Option Text) : Prop :=
  ∀ ret, select h routes (or_zero dst) dev = some (some ret) → ret.addr = ZERO →
    SelfSourced h routes (or_zero ret.gw)

/-- `route` on a cache that has no answer, by what it selects. -/
theorem route_miss {r : Route} {dst : Text} {dev : Option Text}
    (miss : r.cache (or_zero dst, dev) = none) :
    route h r dst dev = match select h r.routes (or_zero dst) dev with
      | none => (none, r)
      | some none => (some (no_path h dev), r)
      | some (some ret) =>
        if ret.addr = ZERO then
          match route_internal h r ret.gw with
          | (none, r) => (none, r)
          | (some a, r) => (some { ret with addr := a.addr }, keep r dst dev { ret with addr := a.addr })
        else (some ret, keep r dst dev ret) := by
  unfold route
  rw [route_with]
  simp only [miss]
  rfl

/-- One lookup: the answer is the full computation's, the table is untouched and the cache stays
coherent. -/
theorem route_spec {r : Route} (hr : Coherent h r) (dst : Text) (dev : Option Text)
    (hok : r.cache (or_zero dst, dev) = none → LookupOk h r.routes dst dev) :
    (route h r dst dev).1 = full_answer h r.routes (or_zero dst) dev
      ∧ (route h r dst dev).2.routes = r.routes ∧ Coherent h (route h r dst dev).2 := by
  cases hit : r.cache (or_zero dst, dev) with
  | some a =>
    unfold route
    rw [route_with_hit hit]
    exact ⟨(hr _ a hit).symm, rfl, hr⟩
  | none =>
    rw [route_miss hit]
    cases hsel : select h r.routes (or_zero dst) dev with
    | none => exact ⟨by rw [full_answer, hsel]; rfl, rfl, hr⟩
    | some ret =>
      cases ret with
      | none => exact ⟨by rw [full_answer, hsel]; rfl, rfl, hr⟩
      | some ret =>
        have hfull : full_answer h r.routes (or_zero dst) dev
            = if ret.addr = ZERO then
                (internal_answer h r.routes (or_zero ret.gw) none).map fun a => { ret with addr := a.addr }
              else some ret := by
          rw [full_answer, hsel]
          rfl
        dsimp only
        by_cases hzero : ret.addr = ZERO
        -- the source is the gateway's own, which the lookup of the gateway leaves in the cache too
        · obtain ⟨hvia, hroutes, hcoh⟩ := route_internal_spec hr (hok hit ret hsel hzero)
          rw [if_pos hzero] at hfull ⊢
          rw [← hvia] at hfull
          generalize route_internal h r ret.gw = via at hfull hroutes hcoh ⊢
          obtain ⟨a, r'⟩ := via
          cases a with
          | none => exact ⟨hfull.symm, hroutes, hcoh⟩
          | some a =>
            refine ⟨hfull.symm, hroutes, hcoh.keep ?_⟩
            rw [hroutes, hfull]
            rfl
        · rw [if_neg hzero] at hfull ⊢
          exact ⟨hfull.symm, rfl, hr.keep hfull⟩

theorem coherent_empty (r : Route) : Coherent h (invalidate_cache r) := Memo.coherent_empty _

/-- An empty cache answers as the table does. -/
theorem route_fresh (r : Route) (dst : Text) (dev : Option Text) :
    (route h (invalidate_cache r) dst dev).1 = full_answer h r.routes (or_zero dst) dev := by
  rw [route_miss rfl, full_answer, invalidate_cache]
  dsimp only
  cases hsel : select h r.routes (or_zero dst) dev with
  | none => rfl
  | some ret =>
    cases ret with
    | none => rfl
    | some ret =>
      rw [Option.bind_some]
      dsimp only
      split
      · rw [route_internal_miss rfl]
        cases internal_answer h r.routes (or_zero ret.gw) none <;> rfl
      · rfl

/-! ## Changes behind a lookup -/

/-- A change of the table selects the same for `g`, and for `g`'s gateway where its source is taken
from there. -/
def Unmoved (h : Host) (routes routes' : List IPv4Route) (g : Text) : Prop :=
  select h routes' g none = select h routes g none
    ∧ ∀ ret, select h routes g none = some (some ret) → ret.addr = ZERO →
      select h routes' (or_zero ret.gw) none = select h routes (or_zero ret.gw) none

/-- Where the routes to a destination did not move, neither did the full answer. -/
theorem Unmoved.full_eq {routes routes' : List IPv4Route} {g : Text} (hg : Unmoved h routes routes' g) :
    full_answer h routes' g none = full_answer h routes g none := by
  unfold full_answer
  rw [hg.1]
  cases hsel : select h routes g none with
  | none => rfl
  | some ret =>
    cases ret with
    | none => rfl
    | some ret =>
      rw [Option.bind_some, Option.bind_some]
      dsimp only
      split
      · next hzero => rw [internal_answer, internal_answer, hg.2 ret hsel hzero]
      · rfl

/-- A change of the table moves none of the answers that looking `g` up leaves in the cache. -/
def Unaffected (h : Host) (routes routes' : List IPv4Route) (g : Text) : Prop :=
  ∀ ret, select h routes (or_zero g) none = some (some ret) →
    Unmoved h routes routes' (or_zero g)
      ∧ (ret.addr = ZERO → Unmoved h routes routes' (or_zero ret.gw))

theorem keep_eq_some {r : Route} {dst : Text} {dev : Option Text} {a b : Answer}
    {k : Text × Option Text} (hk : (keep r dst dev a).cache k = some b) :
    k = (or_zero dst, dev) ∨ r.cache k = some b :=
  (Memo.insert_eq_some hk).imp And.left id

/-- What looking `g` up leaves in an empty cache. -/
theorem route_keys {r : Route} (hempty : r.cache = Memo.empty) {g : Text} {k : Text × Option Text}
    {a : Answer} (hk : (route h r g none).2.cache k = some a) :
    ∃ ret, select h r.routes (or_zero g) none = some (some ret)
      ∧ (k = (or_zero g, none) ∨ ret.addr = ZERO ∧ k = (or_zero ret.gw, none)) := by
  have hnone : ∀ k, r.cache k = none := fun k => by rw [hempty]; rfl
  rw [route_miss (hnone _)] at hk
  cases hsel : select h r.routes (or_zero g) none with
  | none =>
    rw [hsel] at hk
    exact absurd (hk.symm.trans (hnone k)) (Option.some_ne_none a)
  | some ret =>
    rw [hsel] at hk
    cases ret with
    | none => exact absurd (hk.symm.trans (hnone k)) (Option.some_ne_none a)
    | some ret =>
      refine ⟨ret, rfl, ?_⟩
      dsimp only at hk
      split at hk
      · next hzero =>
        -- the inner lookup keeps its answer under the gateway only
        have hvia : ∀ b, (route_internal h r ret.gw).2.cache k = some b → k = (or_zero ret.gw, none) := by
          intro b hb
          rw [route_internal_miss (hnone _)] at hb
          dsimp only at hb
          split at hb
          · exact (keep_eq_some hb).resolve_right fun hold => by
              rw [hnone k] at hold
              cases hold
          · exact absurd (hb.symm.trans (hnone k)) (Option.some_ne_none b)
        generalize route_internal h r ret.gw = via at hk hvia
        obtain ⟨b, r'⟩ := via
        cases b with
        | none => exact .inr ⟨hzero, hvia a hk⟩
        | some b =>
          obtain hkey | hold := keep_eq_some hk
          · exact .inl hkey
          · exact .inr ⟨hzero, hvia a hold⟩
      · exact .inl ((keep_eq_some hk).resolve_right fun hold => by
          rw [hnone k] at hold
          cases hold)

/-- A table changed behind a lookup that is not affected. -/
theorem coherent_changed {r : Route} (hempty : r.cache = Memo.empty) {g : Text}
    (hlook : LookupOk h r.routes g none) {routes' : List IPv4Route}
    (hsame : Unaffected h r.routes routes' g) :
    Coherent h { (route h r g none).2 with routes := routes' } := by
  have hr : Coherent h r := by
    rw [Coherent, hempty]
    exact Memo.coherent_empty _
  obtain ⟨_, hroutes, hcoh⟩ := route_spec hr _ _ fun _ => hlook
  refine Memo.Coherent.congr hcoh ?_
  intro k a hk
  -- an answer in the cache is the lookup's own or its gateway's, and neither has moved
  obtain ⟨ret, hsel, hkey⟩ := route_keys hempty hk
  obtain ⟨hg, hgw⟩ := hsame ret hsel
  rw [hroutes]
  obtain rfl | ⟨hzero, rfl⟩ := hkey
  · exact hg.full_eq
  · exact (hgw hzero).full_eq

/-! ## Calls -/

/-- `add` and `delt` with the device they look up: the gateway's route has a source to give, and
the change, where there is one, moves none of the answers the lookup kept. -/
def ChangeOk (h : Host) (r : Route) (args : RouteArgs) (change : IPv4Route → List IPv4Route) : Prop :=
  args.dev = none → ∀ thenet msk, args.target h = some (thenet, msk) →
    LookupOk h r.routes (args.gateway thenet) none
      ∧ ∀ row, (make_route h (invalidate_cache r) args).1 = some row →
        Unaffected h r.routes (change row) (args.gateway thenet)

/-- The condition on one call, from the state before it. -/
def CallOk (h : Host) (r : Route) : Call → Prop
  | .add args => ChangeOk h r args fun row => r.routes ++ [row]
  | .delt args => ChangeOk h r args fun row => r.routes.erase row
  | .route dst dev => r.cache (or_zero dst, dev) = none → LookupOk h r.routes dst dev
  | .ifchange _ _ => True
  | .ifdel _ => True
  | .ifadd _ _ => True
  | .resync _ => True

theorem make_route_given {r : Route} {args : RouteArgs}
    (hgiven : args.target h = none ∨ args.dev ≠ none) : (make_route h r args).2 = r := by
  unfold make_route
  cases htarget : args.target h with
  | none => rfl
  | some target =>
    cases hdev : args.dev with
    | some dev => rfl
    | none => simp [htarget, hdev] at hgiven

theorem make_route_lookup {r : Route} {args : RouteArgs} {thenet : Text} {msk : ℤ}
    (htarget : args.target h = some (thenet, msk)) (hdev : args.dev = none) :
    (make_route h r args).2 = (route h r (args.gateway thenet) none).2 := by
  unfold make_route
  rw [htarget, hdev]
  dsimp only
  generalize route h r (args.gateway thenet) none = found
  obtain ⟨a, r'⟩ := found
  cases a <;> rfl

/-- What `make_route` leaves: the table as it was, its cache coherent with the table and, where a
row was made, with the changed one. -/
theorem make_route_spec {r : Route} {args : RouteArgs} {change : IPv4Route → List IPv4Route}
    (hok : ChangeOk h r args change) :
    (make_route h (invalidate_cache r) args).2.routes = r.routes
      ∧ Coherent h (make_route h (invalidate_cache r) args).2
      ∧ ∀ row, (make_route h (invalidate_cache r) args).1 = some row →
        Coherent h { (make_route h (invalidate_cache r) args).2 with routes := change row } := by
  by_cases hgiven : args.target h = none ∨ args.dev ≠ none
  · rw [make_route_given hgiven]
    exact ⟨rfl, coherent_empty r, fun _ _ => Memo.coherent_empty _⟩
  · rw [not_or, not_not] at hgiven
    obtain ⟨htarget, hdev⟩ := hgiven
    obtain ⟨⟨thenet, msk⟩, htarget⟩ := Option.ne_none_iff_exists'.1 htarget
    obtain ⟨hlook, hsame⟩ := hok hdev thenet msk htarget
    rw [make_route_lookup htarget hdev]
    obtain ⟨_, hroutes, hcoh⟩ := route_spec (coherent_empty (h := h) r) (args.gateway thenet) none
      fun _ => hlook
    exact ⟨hroutes, hcoh, fun row hrow => coherent_changed (r := invalidate_cache r) rfl hlook (hsame row hrow)⟩

/-- A call that meets its condition leaves the cache coherent. -/
theorem step_coherent {r : Route} (hr : Coherent h r) {c : Call} (hc : CallOk h r c) :
    Coherent h (step h r c) := by
  -- By the call: those that change the table empty the cache, and a lookup fills it coherently.
  cases c with
  | add args =>
    obtain ⟨hroutes, hcoh, hchanged⟩ := make_route_spec hc
    rw [step, add]
    generalize make_route h (invalidate_cache r) args = made at hroutes hcoh hchanged ⊢
    obtain ⟨row, r'⟩ := made
    cases row with
    | none => exact hcoh
    | some row =>
      -- The row is there, so the table changes and the cache is emptied.
      dsimp only at hroutes ⊢
      rw [hroutes]
      exact hchanged row rfl
  | delt args =>
    obtain ⟨hroutes, hcoh, hchanged⟩ := make_route_spec hc
    rw [step, delt]
    generalize make_route h (invalidate_cache r) args = made at hroutes hcoh hchanged ⊢
    obtain ⟨row, r'⟩ := made
    cases row with
    | none => exact hcoh
    | some row =>
      dsimp only at hroutes ⊢
      split
      · rw [hroutes]
        exact hchanged row rfl
      · exact hcoh
  | ifchange iff addr =>
    rw [step, ifchange]
    dsimp only
    split <;> exact Memo.coherent_empty _
  | ifdel iff => exact Memo.coherent_empty _
  | ifadd iff addr =>
    rw [step, ifadd]
    dsimp only
    split <;> exact Memo.coherent_empty _
  | resync rows => exact Memo.coherent_empty _
  | route dst dev => exact (route_spec hr dst dev hc).2.2

/-! ## Runs -/

/-- Every call of a run meets its condition in the state it is made in. -/
def RunOk (h : Host) : Route → List Call → Prop
  | _, [] => True
  | r, c :: calls => CallOk h r c ∧ RunOk h (step h r c) calls

/-- A run of two parts. -/
theorem runOk_append {r : Route} {calls calls' : List Call} :
    RunOk h r (calls ++ calls') ↔ RunOk h r calls ∧ RunOk h (run h r calls) calls' := by
  induction calls generalizing r with
  | nil => simp [RunOk, run]
  | cons c calls ih =>
    rw [List.cons_append, RunOk, RunOk, ih, and_assoc]
    rfl

theorem run_coherent {r : Route} (hr : Coherent h r) {calls : List Call} (hcalls : RunOk h r calls) :
    Coherent h (run h r calls) := by
  induction calls generalizing r with
  | nil => exact hr
  | cons c calls ih => exact ih (step_coherent hr hcalls.1) hcalls.2

/-- A table, its cache empty. -/
def fresh (routes : List IPv4Route) : Route := ⟨routes, Memo.empty⟩

end Wiry.Routing
