/-
`Route6` of `python/wiry/route.py`: the IPv6 table, its cache, and the calls that change
and read them.

Its cache is keyed by one text, the destination with the device behind it. What `utils6.py`
computes of addresses in text, and what the host's library does, is `Host6`.
-/
import Wiry.Routing.Table

set_option autoImplicit false

namespace Wiry.Routing

/-- `"::"`. -/
def UNSPECIFIED : Text := "::".toList

/-- `"::1"`. -/
def LOOPBACK : Text := "::1".toList

/-- The host's part and that of `utils6.py`; `none` where they raise. -/
structure Host6 where
  in6_bytes : Text → Option (List UInt8)
  int : Text → Option ℤ
  loopback_name : Text
  in6_included : Text → Text → ℤ → Option Bool
  in6_ismaddr : Text → Bool
  /-- Whether the scope of an address is link-local. -/
  in6_islinklocal : Text → Option Bool
  get_source_addr_from_candidate_set : Text → List Text → Option Text
  /-- The text of an address's network, by `in6_cidr2mask`. -/
  in6_network : Text → ℤ → Option Text
  /-- The text of an address's network, by the octets `ifadd` masks itself. -/
  in6_prefix : Text → ℤ → Option Text

/-- `IPv6Route`. -/
structure IPv6Route where
  net : Text
  plen : ℤ
  gw : Text
  iface : Text
  cset : List Text
  metric : ℤ
deriving DecidableEq

structure Route6 where
  routes : List IPv6Route
  cache : Memo.Table Text Answer

def invalidate_cache6 (r : Route6) : Route6 := { r with cache := Memo.empty }

variable (h : Host6)

/-! ## Looking a destination up -/

/-- The first address of a set, the table's default for none. -/
def first_address6 (dst : Text) : Text := first_address ':' (if dst = [] then "::/0".toList else dst)

/-- Whether a route leads to a destination: by its prefix, or for a link-local group by its scope. -/
def leads (dst : Text) (row : IPv6Route) : Option Bool := do
  if ← h.in6_included dst row.net row.plen then some true
  else if h.in6_ismaddr dst then
    if ← h.in6_islinklocal row.net then
      match row.cset with
      | [] => some false
      | c :: _ => h.in6_islinklocal c
    else some false
  else some false

/-- The routes to a destination, in the table's order. -/
def paths6 (routes : List IPv6Route) (dst : Text) (dev : Option Text) : Option (List IPv6Route) :=
  (routes.filter fun row => dev = none ∨ dev = some row.iface).filterM (leads h dst)

/-- `p` sorts before `q`. -/
def IPv6Route.before (p q : IPv6Route) : Bool :=
  q.plen < p.plen || p.plen == q.plen && p.metric < q.metric

/-- The best of the routes: no other one sorts before them. -/
def best6 (paths : List IPv6Route) : List IPv6Route :=
  paths.filter fun p => paths.all fun q => !q.before p

/-- `route` of an address with an empty cache: the answer, and whether it is one to keep. -/
def select6 (routes : List IPv6Route) (dst : Text) (dev : Option Text) : Option (Answer × Bool) := do
  match ← paths6 h routes dst dev with
  | [] =>
    if dst = LOOPBACK then some (⟨h.loopback_name, LOOPBACK, UNSPECIFIED⟩, false)
    else some (⟨match dev with | some d => if d = [] then h.loopback_name else d | none => h.loopback_name,
      UNSPECIFIED, UNSPECIFIED⟩, false)
  | paths =>
    let found ← (best6 paths).mapM fun row =>
      (h.get_source_addr_from_candidate_set dst row.cset).map fun src => (⟨row.iface, src, row.gw⟩ : Answer)
    match found.find? fun a => a.addr ≠ [] with
    | none => some (⟨h.loopback_name, UNSPECIFIED, UNSPECIFIED⟩, false)
    | some a => some (a, true)

/-- The key an answer is kept under. -/
def key6 (dst : Text) (dev : Option Text) : Text :=
  match dev with
  | none => dst
  | some dev => dst ++ '%' :: '%' :: dev

/-- `Route6.route`. -/
def route6 (r : Route6) (dst : Text) (dev : Option Text) : Option Answer × Route6 :=
  let dst := first_address6 dst
  if (h.in6_bytes dst).isNone then (none, r)
  else
    match r.cache (key6 dst dev) with
    | some a => (some a, r)
    | none =>
      match select6 h r.routes dst dev with
      | none => (none, r)
      | some (a, false) => (some a, r)
      | some (a, true) => (some a, { r with cache := Memo.insert r.cache (key6 dst dev) a })

/-! ## Changing the table -/

/-- `addr.split("/") + ["128"]`: an address and its prefix length. -/
def split_addr6 (addr : Text) : Option (Text × ℤ) := do
  let plen := (addr.dropWhile (· ≠ '/')).drop 1 |>.takeWhile (· ≠ '/')
  some (addr.takeWhile (· ≠ '/'), ← if '/' ∈ addr then h.int plen else some 128)

/-- `make_route`, `cset` being the source candidates the host has on a device that is named. -/
def make_route6 (r : Route6) (dst : Text) (gw dev : Option Text) (cset : List Text) :
    Option IPv6Route × Route6 :=
  match split_addr6 h dst with
  | none => (none, r)
  | some (net, plen) =>
    let gw := gw.getD UNSPECIFIED
    match dev with
    | some dev => (some ⟨net, plen, gw, dev, cset, 1⟩, r)
    | none =>
      match route6 h r gw none with
      | (none, r) => (none, r)
      | (some a, r) => (some ⟨net, plen, gw, a.iface, [a.addr], 1⟩, r)

def add6 (r : Route6) (dst : Text) (gw dev : Option Text) (cset : List Text) : Route6 :=
  match make_route6 h (invalidate_cache6 r) dst gw dev cset with
  | (none, r) => r
  | (some row, r) => { r with routes := r.routes ++ [row] }

/-- The routes `delt` finds: those of a prefix, and of a gateway where one is given. -/
def matching6 (routes : List IPv6Route) (dst : Text) (gw : Option Text) : Option (List IPv6Route) := do
  let (net, plen) ← split_addr6 h dst
  let want ← h.in6_bytes net
  let found ← routes.filterM fun x => do
    some (decide ((← h.in6_bytes x.net) = want) && decide (x.plen = plen))
  match gw with
  | none => some found
  | some gw =>
    if gw = [] then some found
    else do
      let gwb ← h.in6_bytes gw
      found.filterM fun x => do some (decide ((← h.in6_bytes x.gw) = gwb))

def delt6 (r : Route6) (dst : Text) (gw : Option Text) : Route6 :=
  match matching6 h r.routes dst gw with
  | some [row] => { invalidate_cache6 r with routes := r.routes.erase row }
  | _ => r

def ifchange6 (r : Route6) (iff addr : Text) : Route6 :=
  match (do
    let (the_addr, plen) ← split_addr6 h addr
    some (the_addr, plen, ← h.in6_network the_addr plen) : Option (Text × ℤ × Text)) with
  | none => r
  | some (the_addr, plen, the_net) =>
    { invalidate_cache6 r with
      routes := r.routes.map fun row =>
        if row.iface ≠ iff then row
        else if row.gw = UNSPECIFIED then { row with net := the_net, plen, cset := [the_addr] }
        else { row with cset := [the_addr] } }

def ifdel6 (r : Route6) (iff : Text) : Route6 :=
  { invalidate_cache6 r with routes := r.routes.filter fun row => row.iface ≠ iff }

def ifadd6 (r : Route6) (iff addr : Text) : Route6 :=
  match (do
    let (the_addr, plen) ← split_addr6 h addr
    some ⟨← h.in6_prefix the_addr plen, plen, UNSPECIFIED, iff, [the_addr], 1⟩ : Option IPv6Route) with
  | none => r
  | some row => { invalidate_cache6 r with routes := r.routes ++ [row] }

def resync6 (r : Route6) (rows : List IPv6Route) : Route6 :=
  { invalidate_cache6 r with routes := rows }

/-! ## Runs -/

inductive Call6 where
  | add (dst : Text) (gw dev : Option Text) (cset : List Text)
  | delt (dst : Text) (gw : Option Text)
  | ifchange (iff addr : Text)
  | ifdel (iff : Text)
  | ifadd (iff addr : Text)
  | resync (rows : List IPv6Route)
  | route (dst : Text) (dev : Option Text)

/-- One call: the state behind it. -/
def step6 (r : Route6) : Call6 → Route6
  | .add dst gw dev cset => add6 h r dst gw dev cset
  | .delt dst gw => delt6 h r dst gw
  | .ifchange iff addr => ifchange6 h r iff addr
  | .ifdel iff => ifdel6 r iff
  | .ifadd iff addr => ifadd6 h r iff addr
  | .resync rows => resync6 r rows
  | .route dst dev => (route6 h r dst dev).2

def run6 (r : Route6) (calls : List Call6) : Route6 := calls.foldl (step6 h) r

end Wiry.Routing
