/-
The same for the IPv6 table. There is no call for a gateway inside a lookup, so only `add`
can leave a stale answer, the one it looks its own gateway up by.
-/
import Wiry.Routing.Coherence
import Wiry.Routing.Table6
import Mathlib.Data.List.TakeWhile

set_option autoImplicit false

namespace Wiry.Routing

variable {h : Host6}

/-! ## Keys -/

/-- The destination and the device a key was made of. -/
def split_key6 (k : Text) : Text × Option Text :=
  (k.takeWhile (· ≠ '%'), match k.dropWhile (· ≠ '%') with
    | [] => none
    | _ :: dev => some (dev.drop 1))

/-- A key is taken apart into what it was made of when the destination carries no zone. -/
theorem split_key6_key6 {dst : Text} (hdst : '%' ∉ dst) (dev : Option Text) :
    split_key6 (key6 dst dev) = (dst, dev) := by
  have hall : ∀ c ∈ dst, decide (c ≠ '%') = true := by
    intro c hc
    exact decide_eq_true fun heq => hdst (heq ▸ hc)
  unfold split_key6 key6
  cases dev with
  | none =>
    rw [List.takeWhile_eq_self_iff.2 hall, List.dropWhile_eq_nil_iff.2 hall]
  | some dev =>
    rw [List.takeWhile_append_of_pos hall, List.dropWhile_append_of_pos hall]
    simp

/-- What the cache of a table may keep. -/
def kept6 (h : Host6) (routes : List IPv6Route) (k : Text) : Option Answer :=
  (select6 h routes (split_key6 k).1 (split_key6 k).2).map Prod.fst

def Coherent6 (h : Host6) (r : Route6) : Prop := Memo.Coherent (kept6 h r.routes) r.cache

theorem coherent_empty6 (r : Route6) : Coherent6 h (invalidate_cache6 r) := Memo.coherent_empty _

/-- What a table answers. -/
def full_answer6 (h : Host6) (routes : List IPv6Route) (dst : Text) (dev : Option Text) :
    Option Answer :=
  if (h.in6_bytes (first_address6 dst)).isNone then none
  else (select6 h routes (first_address6 dst) dev).map Prod.fst

/-- A text that `inet_pton` takes names no zone. -/
def NoZone (h : Host6) : Prop := ∀ t, (h.in6_bytes t).isSome → '%' ∉ t

/-! ## Lookups -/

/-- One IPv6 lookup: the answer is the full computation's and the cache stays coherent. -/
theorem route6_spec (hzone : NoZone h) {r : Route6} (hr : Coherent6 h r) (dst : Text)
    (dev : Option Text) :
    (route6 h r dst dev).1 = full_answer6 h r.routes dst dev
      ∧ (route6 h r dst dev).2.routes = r.routes ∧ Coherent6 h (route6 h r dst dev).2 := by
  unfold route6 full_answer6
  dsimp only
  -- An address that does not parse is answered without the cache.
  by_cases hvalid : (h.in6_bytes (first_address6 dst)).isNone
  · rw [if_pos hvalid, if_pos hvalid]
    exact ⟨rfl, rfl, hr⟩
  · rw [if_neg hvalid, if_neg hvalid]
    have hsome : (h.in6_bytes (first_address6 dst)).isSome := by
      cases hb : h.in6_bytes (first_address6 dst) with
      | none => simp [hb] at hvalid
      | some b => rfl
    have hkept : kept6 h r.routes (key6 (first_address6 dst) dev)
        = (select6 h r.routes (first_address6 dst) dev).map Prod.fst := by
      rw [kept6, split_key6_key6 (hzone _ hsome)]
    -- A hit is the answer filed under the key; a miss is computed and filed.
    cases hit : r.cache (key6 (first_address6 dst) dev) with
    | some a => exact ⟨(hkept.symm.trans (hr _ a hit)).symm, rfl, hr⟩
    | none =>
      cases hsel : select6 h r.routes (first_address6 dst) dev with
      | none => exact ⟨rfl, rfl, hr⟩
      | some found =>
        obtain ⟨a, keeps⟩ := found
        cases keeps with
        | false => exact ⟨rfl, rfl, hr⟩
        | true =>
          refine ⟨rfl, rfl, Memo.Coherent.insert hr ?_⟩
          rw [hkept, hsel]
          rfl

/-- What a lookup leaves in an empty cache. -/
theorem route6_keys {r : Route6} (hempty : r.cache = Memo.empty) {dst : Text} {dev : Option Text}
    {k : Text} {a : Answer} (hk : (route6 h r dst dev).2.cache k = some a) :
    k = key6 (first_address6 dst) dev ∧ (h.in6_bytes (first_address6 dst)).isSome
      ∧ ∃ b, select6 h r.routes (first_address6 dst) dev = some (b, true) := by
  have hnone : ∀ k, r.cache k = none := fun k => by rw [hempty]; rfl
  unfold route6 at hk
  dsimp only at hk
  split at hk
  · exact absurd (hk.symm.trans (hnone k)) (Option.some_ne_none a)
  · next hvalid =>
    rw [hnone] at hk
    dsimp only at hk
    split at hk
    · exact absurd (hk.symm.trans (hnone k)) (Option.some_ne_none a)
    · exact absurd (hk.symm.trans (hnone k)) (Option.some_ne_none a)
    · next b hsel =>
      refine ⟨((Memo.insert_eq_some hk).resolve_right fun hold => ?_).1, ?_, b, hsel⟩
      · rw [hnone k] at hold
        cases hold
      · exact Option.isSome_iff_ne_none.2 fun hn => hvalid (by rw [hn]; rfl)

/-! ## Calls -/

/-- The condition on one call, from the state before it: an `add` that looks its device up adds no
route that changes what is selected for its gateway, where that is an answer to keep. -/
def CallOk6 (h : Host6) (r : Route6) : Call6 → Prop
  | .add dst gw dev cset =>
    dev = none → ∀ row b, (make_route6 h (invalidate_cache6 r) dst gw dev cset).1 = some row →
      select6 h r.routes (first_address6 (gw.getD UNSPECIFIED)) none = some (b, true) →
      select6 h (r.routes ++ [row]) (first_address6 (gw.getD UNSPECIFIED)) none = some (b, true)
  | .delt _ _ => True
  | .ifchange _ _ => True
  | .ifdel _ => True
  | .ifadd _ _ => True
  | .resync _ => True
  | .route _ _ => True

/-- Adding a route empties the cache, so it stays coherent. -/
theorem add6_coherent (hzone : NoZone h) {r : Route6} {dst : Text} {gw dev : Option Text}
    {cset : List Text} (hc : CallOk6 h r (.add dst gw dev cset)) :
    Coherent6 h (add6 h r dst gw dev cset) := by
  unfold add6
  dsimp only [CallOk6] at hc
  unfold make_route6 at hc ⊢
  -- A network that does not parse adds nothing.
  cases hsplit : split_addr6 h dst with
  | none => exact coherent_empty6 r
  | some parts =>
    obtain ⟨net, plen⟩ := parts
    rw [hsplit] at hc
    cases dev with
    | some dev => exact Memo.coherent_empty _
    | none =>
      dsimp only at hc ⊢
      obtain ⟨_, hroutes, hcoh⟩ := route6_spec hzone (coherent_empty6 (h := h) r) (gw.getD UNSPECIFIED) none
      -- The lookup for the gateway's device files at most its own key, before the table changes.
      have hkeys {k : Text} {a : Answer} :=
        @route6_keys h (invalidate_cache6 r) rfl (gw.getD UNSPECIFIED) none k a
      generalize route6 h (invalidate_cache6 r) (gw.getD UNSPECIFIED) none = found at hc hroutes hcoh hkeys ⊢
      obtain ⟨a, r'⟩ := found
      cases a with
      | none => exact hcoh
      | some a =>
        refine Memo.Coherent.congr hcoh fun k b hk => ?_
        obtain ⟨rfl, hsome, c, hsel⟩ := hkeys hk
        have hsame := hc rfl _ c rfl hsel
        dsimp only at hroutes ⊢
        rw [kept6, kept6, split_key6_key6 (hzone _ hsome), hroutes]
        dsimp only [invalidate_cache6]
        rw [hsame]
        exact congrArg (Option.map Prod.fst) hsel.symm

/-- Every call keeps the cache coherent. -/
theorem step6_coherent (hzone : NoZone h) {r : Route6} (hr : Coherent6 h r) {c : Call6}
    (hc : CallOk6 h r c) : Coherent6 h (step6 h r c) := by
  -- Every call but a lookup empties the cache or changes nothing.
  cases c with
  | add dst gw dev cset => exact add6_coherent hzone hc
  | delt dst gw =>
    rw [step6, delt6]
    split
    · exact Memo.coherent_empty _
    · exact hr
  | ifchange iff addr =>
    rw [step6, ifchange6]
    split
    · exact hr
    · exact Memo.coherent_empty _
  | ifdel iff => exact Memo.coherent_empty _
  | ifadd iff addr =>
    rw [step6, ifadd6]
    split
    · exact hr
    · exact Memo.coherent_empty _
  | resync rows => exact Memo.coherent_empty _
  | route dst dev => exact (route6_spec hzone hr dst dev).2.2

/-! ## Runs -/

/-- Every call of a run meets its condition in the state it is made in. -/
def RunOk6 (h : Host6) : Route6 → List Call6 → Prop
  | _, [] => True
  | r, c :: calls => CallOk6 h r c ∧ RunOk6 h (step6 h r c) calls

theorem run6_coherent (hzone : NoZone h) {r : Route6} (hr : Coherent6 h r) {calls : List Call6}
    (hcalls : RunOk6 h r calls) : Coherent6 h (run6 h r calls) := by
  induction calls generalizing r with
  | nil => exact hr
  | cons c calls ih => exact ih (step6_coherent hzone hr hcalls.1) hcalls.2

/-- A table, its cache empty. -/
def fresh6 (routes : List IPv6Route) : Route6 := ⟨routes, Memo.empty⟩

/-- In every run whose calls meet their conditions each lookup answers as the same table with an
empty cache does, in either family. -/
theorem cache_coherent (h : Host) (h6 : Host6) (rows : List IPv4Route) (rows6 : List IPv6Route)
    (calls : List Call) (calls6 : List Call6) (dst : Text) (dev : Option Text) :
    (RunOk h (fresh rows) (calls ++ [.route dst dev]) →
      (route h (run h (fresh rows) calls) dst dev).1
        = (route h (fresh (run h (fresh rows) calls).routes) dst dev).1)
    ∧ (NoZone h6 → RunOk6 h6 (fresh6 rows6) calls6 →
      (route6 h6 (run6 h6 (fresh6 rows6) calls6) dst dev).1
        = (route6 h6 (fresh6 (run6 h6 (fresh6 rows6) calls6).routes) dst dev).1) := by
  constructor
  · intro hok
    obtain ⟨hcalls, hlast⟩ := runOk_append.1 hok
    have hcoh := run_coherent (r := fresh rows) (Memo.coherent_empty _) hcalls
    rw [(route_spec hcoh dst dev hlast.1).1]
    exact (route_fresh (run h (fresh rows) calls) dst dev).symm
  · intro hzone hcalls
    have hcoh := run6_coherent (r := fresh6 rows6) hzone (Memo.coherent_empty _) hcalls
    rw [(route6_spec hzone hcoh dst dev).1]
    exact (route6_spec hzone (coherent_empty6 _) dst dev).1.symm

/-! ## A gateway behind the route it is added for -/

/-- A decimal number. -/
def number (t : Text) : Option ℕ :=
  if t = [] ∨ t.any (fun c => !c.isDigit) then none
  else some (t.foldl (fun n c => n * 10 + (c.toNat - 48)) 0)

/-- A host that takes dotted quads and decimal prefix lengths. -/
def plain_host : Host where
  atol t := do
    match ← (t.splitOn '.').mapM number with
    | [a, b, c, d] => some (a * 2 ^ 24 + b * 2 ^ 16 + c * 2 ^ 8 + d)
    | _ => none
  int t := (number t).map Int.ofNat
  loopback_name := "lo".toList

/-- A default route by 10.0.0.1, and the net it is in. -/
def two_routes : List IPv4Route :=
  [⟨0, 0, "10.0.0.1".toList, "eth0".toList, "10.0.0.2".toList, 0⟩,
    ⟨0x0A000000, 0xFFFFFF00, ZERO, "eth0".toList, "10.0.0.2".toList, 0⟩]

/-- `add(net="10.1.0.0/16", gw=gw, dev=dev)`. -/
def add_net (gw : Text) (dev : Option Text) : Call :=
  .add ⟨none, some "10.1.0.0/16".toList, some gw, dev, 1⟩

/-- A host that knows one IPv6 address and the unspecified one, and a default route. -/
def plain_host6 : Host6 where
  in6_bytes t :=
    if t = UNSPECIFIED then some (List.replicate 16 0)
    else if t = "2001:db8::1".toList then some ([0x20, 1, 0x0D, 0xB8] ++ List.replicate 11 0 ++ [1])
    else none
  int t := (number t).map Int.ofNat
  loopback_name := "lo".toList
  in6_included _ _ plen := some (plen = 0)
  in6_ismaddr _ := false
  in6_islinklocal _ := some false
  get_source_addr_from_candidate_set _ cset := some (cset.headD [])
  in6_network t _ := some t
  in6_prefix t _ := some t

/-- The plain host answers without zones. -/
theorem noZone_plain : NoZone plain_host6 := by
  intro t ht
  simp only [plain_host6] at ht
  split at ht
  · next h =>
    rw [h]
    decide +kernel
  · split at ht
    · next h =>
      rw [h]
      decide +kernel
    · cases ht

/-- `add` with a device, and a lookup whose source is its gateway's. -/
theorem cache_coherent_plain :
    (route plain_host (run plain_host (fresh two_routes) [add_net "10.0.0.1".toList (some "eth0".toList)])
        "10.1.0.1".toList none).1
      = (route plain_host
          (fresh (run plain_host (fresh two_routes) [add_net "10.0.0.1".toList (some "eth0".toList)]).routes)
          "10.1.0.1".toList none).1
    ∧ (route6 plain_host6 (run6 plain_host6 (fresh6 []) [.ifadd "eth0".toList "2001:db8::1".toList])
        "2001:db8::1".toList none).1
      = (route6 plain_host6
          (fresh6 (run6 plain_host6 (fresh6 []) [.ifadd "eth0".toList "2001:db8::1".toList]).routes)
          "2001:db8::1".toList none).1 := by
  refine ⟨(cache_coherent plain_host plain_host6 two_routes []
      [add_net "10.0.0.1".toList (some "eth0".toList)] [] "10.1.0.1".toList none).1
        ⟨fun hdev => absurd hdev (Option.some_ne_none _), ?_, trivial⟩,
    (cache_coherent plain_host plain_host6 [] [] []
      [.ifadd "eth0".toList "2001:db8::1".toList] "2001:db8::1".toList none).2
        noZone_plain ⟨trivial, trivial⟩⟩
  intro _ ret hsel _ next hnext hzero
  -- the gateway is on the net, whose route has a source
  have hvia : select plain_host (step plain_host (fresh two_routes)
      (add_net "10.0.0.1".toList (some "eth0".toList))).routes (or_zero "10.1.0.1".toList) none
      = some (some ⟨"eth0".toList, ZERO, "10.0.0.1".toList⟩) := by decide +kernel
  have hgw : select plain_host (step plain_host (fresh two_routes)
      (add_net "10.0.0.1".toList (some "eth0".toList))).routes (or_zero "10.0.0.1".toList) none
      = some (some ⟨"eth0".toList, "10.0.0.2".toList, ZERO⟩) := by decide +kernel
  rw [hvia, Option.some.injEq, Option.some.injEq] at hsel
  subst hsel
  rw [hgw, Option.some.injEq, Option.some.injEq] at hnext
  subst hnext
  exact absurd hzero (by decide +kernel)

/-- Added without a device, the route by 10.1.0.1 leaves the answer for 10.1.0.1 it had before. -/
theorem gateway_answer_stale :
    (route plain_host (run plain_host (fresh two_routes) [add_net "10.1.0.1".toList none])
        "10.1.0.1".toList none).1
      ≠ (route plain_host
          (fresh (run plain_host (fresh two_routes) [add_net "10.1.0.1".toList none]).routes)
          "10.1.0.1".toList none).1 := by
  decide +kernel

end Wiry.Routing
