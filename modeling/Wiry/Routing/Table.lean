/-
`Route` of `python/wiry/route.py`: the IPv4 table, its cache, and the calls that change
and read them.

What the host's library answers is `Host`. A dictionary is a memo table; `None` stands for
a `ValueError`, after which the caller sees the state it left behind.
-/
import Wiry.Lib.Memo
import Mathlib.Data.List.Basic
import Mathlib.Data.Nat.Bitwise

set_option autoImplicit false

namespace Wiry.Routing

abbrev Text := List Char

/-- `"0.0.0.0"`. -/
def ZERO : Text := "0.0.0.0".toList

/-- The host's part: `inet_aton` as an integer, `int` of a text, and `conf.loopback_name`. -/
structure Host where
  atol : Text → Option ℕ
  int : Text → Option ℤ
  loopback_name : Text

/-- `IPv4Route`. -/
structure IPv4Route where
  net : ℕ
  msk : ℕ
  gw : Text
  iface : Text
  addr : Text
  metric : ℤ
deriving DecidableEq

/-- `(iface, source address, gateway)`. -/
structure Answer where
  iface : Text
  addr : Text
  gw : Text
deriving DecidableEq

structure Route where
  routes : List IPv4Route
  cache : Memo.Table (Text × Option Text) Answer

def invalidate_cache (r : Route) : Route := { r with cache := Memo.empty }

/-- A prefix length as a netmask; the shift by a negative count is a `ValueError`. -/
def itom (x : ℤ) : Option ℕ :=
  if x = 0 then some 0
  else if 32 < x then none
  else some ((0xFFFFFFFF <<< (32 - x).toNat) &&& 0xFFFFFFFF)

/-! ## Looking a destination up -/

/-- The loop that cuts the ranges out of a set of addresses, from each `-` to the next `sep`. -/
def cut_ranges (sep : Char) : Bool → Text → Text
  | _, [] => []
  | true, c :: cs => if c = sep then c :: cut_ranges sep false cs else cut_ranges sep true cs
  | false, c :: cs => if c = '-' then cut_ranges sep true cs else c :: cut_ranges sep false cs

/-- The first address of a set. -/
def first_address (sep : Char) (dst : Text) : Text :=
  cut_ranges sep false ((dst.takeWhile (· ≠ '/')).map fun c => if c = '*' then '0' else c)

/-- A way to a destination: how long its prefix is, its metric, and the answer. -/
structure Path where
  mask : ℕ
  metric : ℤ
  answer : Answer

/-- The paths one route gives. -/
def paths_of (h : Host) (atol_dst : ℕ) (dev : Option Text) (row : IPv4Route) : Option (List Path) :=
  if row.addr = [] then some []
  else if dev ≠ none ∧ dev ≠ some row.iface then some []
  else (h.atol row.addr).map fun aa =>
    (if aa = atol_dst ∧ aa ≠ 0 then [⟨0xFFFFFFFF, 1, ⟨h.loopback_name, row.addr, ZERO⟩⟩] else []) ++
      if atol_dst &&& row.msk = row.net &&& row.msk then
        [⟨row.msk, row.metric, ⟨row.iface, row.addr, row.gw⟩⟩]
      else []

/-- `p` sorts before `q`. -/
def Path.before (p q : Path) : Bool := q.mask < p.mask || p.mask == q.mask && p.metric < q.metric

/-- The first of the paths as they are sorted, longest prefix and then lowest metric first. -/
def best : List Path → Option Path
  | [] => none
  | p :: ps =>
    match best ps with
    | none => some p
    | some q => if q.before p then some q else some p

/-- The answer of the best path, before a source is looked for; `some none` where nothing matches. -/
def select (h : Host) (routes : List IPv4Route) (dst : Text) (dev : Option Text) :
    Option (Option Answer) := do
  let atol_dst ← h.atol (first_address '.' dst)
  let paths ← routes.mapM (paths_of h atol_dst dev)
  some ((best paths.flatten).map (·.answer))

/-- `dst or "0.0.0.0"`. -/
def or_zero (dst : Text) : Text := if dst = [] then ZERO else dst

/-- What a destination nothing matches answers. -/
def no_path (h : Host) (dev : Option Text) : Answer :=
  ⟨match dev with | some d => if d = [] then h.loopback_name else d | none => h.loopback_name, ZERO, ZERO⟩

/-- `Route.route`, `via` being the call for the gateway where it makes one. -/
def route_with (h : Host) (via : Option (Route → Text → Option Answer × Route)) (r : Route)
    (dst : Text) (dev : Option Text) : Option Answer × Route :=
  let dst := or_zero dst
  match r.cache (dst, dev) with
  | some a => (some a, r)
  | none =>
    match select h r.routes dst dev with
    | none => (none, r)
    | some none => (some (no_path h dev), r)
    | some (some ret) =>
      if ret.addr = ZERO then
        match via with
        | none => (some ret, { r with cache := Memo.insert r.cache (dst, dev) ret })
        | some via =>
          match via r ret.gw with
          | (none, r) => (none, r)
          | (some a, r) =>
            let ret := { ret with addr := a.addr }
            (some ret, { r with cache := Memo.insert r.cache (dst, dev) ret })
      else (some ret, { r with cache := Memo.insert r.cache (dst, dev) ret })

/-- `route(dst, _internal=True)`. -/
def route_internal (h : Host) (r : Route) (dst : Text) : Option Answer × Route :=
  route_with h none r dst none

/-- `route(dst, dev)`. -/
def route (h : Host) (r : Route) (dst : Text) (dev : Option Text) : Option Answer × Route :=
  route_with h (some (route_internal h)) r dst dev

/-! ## Changing the table -/

/-- The arguments of `add` and `delt`. -/
structure RouteArgs where
  host : Option Text
  net : Option Text
  gw : Option Text
  dev : Option Text
  metric : ℤ

/-- `net.split("/")` of exactly two parts, the second an integer. -/
def split_net (h : Host) (net : Text) : Option (Text × ℤ) :=
  let thenet := net.takeWhile (· ≠ '/')
  match net.dropWhile (· ≠ '/') with
  | [] => none
  | _ :: plen => if '/' ∈ plen then none else (h.int plen).map fun n => (thenet, n)

/-- The network a route is for. -/
def RouteArgs.target (h : Host) (args : RouteArgs) : Option (Text × ℤ) :=
  match args.host, args.net with
  | some host, _ => some (host, 32)
  | none, some net => split_net h net
  | none, none => none

/-- The destination `make_route` looks a device up for. -/
def RouteArgs.gateway (args : RouteArgs) (thenet : Text) : Text :=
  if args.gw.getD ZERO = [] then thenet else args.gw.getD ZERO

def make_route (h : Host) (r : Route) (args : RouteArgs) : Option IPv4Route × Route :=
  match args.target h with
  | none => (none, r)
  | some (thenet, msk) =>
    let found : Option (Text × Text) × Route :=
      match args.dev with
      | some dev => (some (dev, ZERO), r)
      | none =>
        match route h r (args.gateway thenet) none with
        | (none, r) => (none, r)
        | (some a, r) => (some (a.iface, a.addr), r)
    match found with
    | (none, r) => (none, r)
    | (some (dev, ifaddr), r) =>
      let row : Option IPv4Route := do
        some ⟨← h.atol thenet, ← itom msk, args.gw.getD ZERO, dev, ifaddr, args.metric⟩
      (row, r)

def add (h : Host) (r : Route) (args : RouteArgs) : Route :=
  match make_route h (invalidate_cache r) args with
  | (none, r) => r
  | (some row, r) => { r with routes := r.routes ++ [row] }

def delt (h : Host) (r : Route) (args : RouteArgs) : Route :=
  match make_route h (invalidate_cache r) args with
  | (none, r) => r
  | (some row, r) => if row ∈ r.routes then { r with routes := r.routes.erase row } else r

/-- `addr.split("/") + ["32"]`: an address and the mask of its prefix length. -/
def split_addr (h : Host) (addr : Text) : Option (Text × ℕ) := do
  let plen := (addr.dropWhile (· ≠ '/')).drop 1 |>.takeWhile (· ≠ '/')
  let msk ← itom (← if '/' ∈ addr then h.int plen else some 32)
  some (addr.takeWhile (· ≠ '/'), msk)

def ifchange (h : Host) (r : Route) (iff addr : Text) : Route :=
  let r := invalidate_cache r
  match (do
    let (the_addr, the_msk) ← split_addr h addr
    some (the_addr, the_msk, (← h.atol the_addr) &&& the_msk) : Option (Text × ℕ × ℕ)) with
  | none => r
  | some (the_addr, the_msk, the_net) =>
    { r with
      routes := r.routes.map fun row =>
        if iff ≠ row.iface then row
        else if row.gw = ZERO then { row with net := the_net, msk := the_msk, addr := the_addr }
        else { row with addr := the_addr } }

def ifdel (r : Route) (iff : Text) : Route :=
  let r := invalidate_cache r
  { r with routes := r.routes.filter fun row => row.iface ≠ iff }

def ifadd (h : Host) (r : Route) (iff addr : Text) : Route :=
  let r := invalidate_cache r
  match (do
    let (the_addr, the_msk) ← split_addr h addr
    some ⟨(← h.atol the_addr) &&& the_msk, the_msk, ZERO, iff, the_addr, 1⟩ : Option IPv4Route) with
  | none => r
  | some row => { r with routes := r.routes ++ [row] }

/-- `resync`, `rows` being the table the host has now. -/
def resync (r : Route) (rows : List IPv4Route) : Route := { invalidate_cache r with routes := rows }

/-! ## Runs -/

inductive Call where
  | add (args : RouteArgs)
  | delt (args : RouteArgs)
  | ifchange (iff addr : Text)
  | ifdel (iff : Text)
  | ifadd (iff addr : Text)
  | resync (rows : List IPv4Route)
  | route (dst : Text) (dev : Option Text)

/-- One call: the state behind it. -/
def step (h : Host) (r : Route) : Call → Route
  | .add args => add h r args
  | .delt args => delt h r args
  | .ifchange iff addr => ifchange h r iff addr
  | .ifdel iff => ifdel r iff
  | .ifadd iff addr => ifadd h r iff addr
  | .resync rows => resync r rows
  | .route dst dev => (route h r dst dev).2

def run (h : Host) (r : Route) (calls : List Call) : Route := calls.foldl (step h) r

end Wiry.Routing
