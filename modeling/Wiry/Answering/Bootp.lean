/-
`BOOTP_am` of `python/wiry/answering.py`: a pool of addresses handed out one for each client, and the
leases it keeps.

An address is its text, and a client the text of its MAC address.
-/
import Mathlib.Data.List.Nodup
import Wiry.Volatile.Net

set_option autoImplicit false

namespace Wiry.Answering

open Volatile (Net)

abbrev Text : Type := List Char

/-- The `pool` argument: a text, anything else to iterate over, or neither. -/
inductive PoolArg where
  | text (s : Text)
  | items (pool : List Text)
  | other (pool : Text)

/-- `self.pool`: the list that is left, or what every client is given. -/
inductive Pool where
  | list (pool : List Text)
  | single (pool : Text)
deriving DecidableEq

/-- The gateway, and what `ipaddress.ip_network` makes of the network. -/
structure Reserved where
  gw : Option Text
  network : Text
  broadcast : Text
deriving DecidableEq

structure BOOTP_am where
  pool : Pool
  reserved : Reserved
  leases : List (Text × Text)
deriving DecidableEq

/-- The BOOTP fields a reply carries over from its request. -/
structure Carried where
  htype : ℕ
  hlen : ℕ
  hops : ℕ
  xid : ℕ
  secs : ℕ
  flags : ℕ
  chaddr : List UInt8
  sname : List UInt8
  file : List UInt8
deriving DecidableEq

structure Request where
  src : Text
  sport : ℕ
  dport : ℕ
  op : ℕ
  fields : Carried
deriving DecidableEq

/-- `Ether / IP / UDP / BOOTP`; with a gateway three more of the BOOTP fields are set to it. -/
structure Reply where
  ether_dst : Text
  ip_dst : Text
  sport : ℕ
  dport : ℕ
  op : ℕ
  yiaddr : Text
  fields : Carried
  siaddr : Option Text
  ciaddr : Option Text
  giaddr : Option Text
deriving DecidableEq

/-- The addresses of a pool that can be iterated over; a text is a range. -/
def PoolArg.addresses : PoolArg → Option (List Text)
  | .text s => (Net.new .v4 s none none).map Net.iter
  | .items pool => some pool
  | .other _ => none

/-- `k in (gw, self.network, self.broadcast)`. -/
def Reserved.holds (r : Reserved) (k : Text) : Bool := some k = r.gw ∨ k = r.network ∨ k = r.broadcast

/-- What may be handed out of a list of addresses, the first of it last. -/
def Reserved.left (r : Reserved) (pool : List Text) : List Text :=
  (pool.filter fun k => !r.holds k).reverse

/-- `parse_options`. -/
def parse_options (reserved : Reserved) (pool : PoolArg) : Option BOOTP_am :=
  match pool with
  | .other pool => some ⟨.single pool, reserved, []⟩
  | pool =>
    pool.addresses.map fun pool =>
      match reserved.left pool with
      | [ip] => ⟨.single ip, reserved, []⟩
      | left => ⟨.list left, reserved, []⟩

/-- The reply to a client that is given `ip`. -/
def reply (reserved : Reserved) (req : Request) (ip : Text) : Reply where
  ether_dst := req.src
  ip_dst := ip
  sport := req.dport
  dport := req.sport
  op := 2
  yiaddr := ip
  fields := req.fields
  siaddr := reserved.gw
  ciaddr := reserved.gw
  giaddr := reserved.gw

/-- `make_reply`: nothing where the pool is exhausted. -/
def make_reply (am : BOOTP_am) (req : Request) : Option Reply × BOOTP_am :=
  match am.pool with
  | .single ip => (some (reply am.reserved req ip), am)
  | .list pool =>
    match am.leases.lookup req.src with
    | some ip => (some (reply am.reserved req ip), am)
    | none =>
      match pool.getLast? with
      | none => (none, am)
      | some ip =>
        (some (reply am.reserved req ip),
          { am with pool := .list pool.dropLast, leases := (req.src, ip) :: am.leases })

/-- `is_request`. -/
def is_request (req : Request) : Bool := req.op = 1

/-- One packet seen: what it is answered, if anything, and what is left. -/
def serve (am : BOOTP_am) (req : Request) : Option Reply × BOOTP_am :=
  if is_request req then make_reply am req else (none, am)

/-- What is answered of a sequence of packets. -/
def answered (am : BOOTP_am) : List Request → List (Request × Reply)
  | [] => []
  | req :: reqs =>
    match serve am req with
    | (some rep, am) => (req, rep) :: answered am reqs
    | (none, am) => answered am reqs

/-- The machine after a sequence of packets. -/
def after (am : BOOTP_am) (reqs : List Request) : BOOTP_am := reqs.foldl (fun am req => (serve am req).2) am

/-! ## Leases -/

theorem mem_of_lookup {leases : List (Text × Text)} {mac ip : Text} (h : leases.lookup mac = some ip) :
    (mac, ip) ∈ leases := by
  rw [List.lookup_eq_some_iff] at h
  obtain ⟨before, rest, rfl, -⟩ := h
  simp

/-- No address is in the pool twice, or leased twice, or in the pool and leased; and none is reserved. -/
structure Inv (am : BOOTP_am) (pool : List Text) : Prop where
  is_list : am.pool = .list pool
  pool_nodup : pool.Nodup
  leased_nodup : (am.leases.map Prod.snd).Nodup
  apart : ∀ ip ∈ pool, ip ∉ am.leases.map Prod.snd
  pool_free : ∀ ip ∈ pool, am.reserved.holds ip = false
  leased_free : ∀ l ∈ am.leases, am.reserved.holds l.2 = false

namespace Inv

variable {am : BOOTP_am} {pool : List Text}

/-- A fresh lease. -/
theorem lease {ip mac : Text} (h : Inv am pool) (hip : pool.getLast? = some ip) :
    Inv { am with pool := .list pool.dropLast, leases := (mac, ip) :: am.leases } pool.dropLast := by
  have hmem : ip ∈ pool := List.mem_of_getLast? hip
  have hdrop : ∀ k ∈ pool.dropLast, k ∈ pool := fun k hk => List.mem_of_mem_dropLast hk
  have hsplit : pool.dropLast ++ [ip] = pool := by
    refine List.dropLast_append_getLast? ip ?_
    simp [hip]
  have hnodup := h.pool_nodup
  rw [← hsplit, List.nodup_append] at hnodup
  refine ⟨rfl, hnodup.1, ?_, ?_, ?_, ?_⟩
  · simpa using ⟨by simpa using h.apart ip hmem, h.leased_nodup⟩
  · intro k hk
    rw [List.map_cons, List.mem_cons, not_or]
    exact ⟨hnodup.2.2 k hk ip (by simp), h.apart k (hdrop k hk)⟩
  · exact fun k hk => h.pool_free k (hdrop k hk)
  · intro l hl
    rcases List.mem_cons.1 hl with rfl | hl
    · exact h.pool_free ip hmem
    · exact h.leased_free l hl

/-- No two clients are leased one address. -/
theorem lookup_inj {a b ip : Text} (h : Inv am pool) (ha : am.leases.lookup a = some ip)
    (hb : am.leases.lookup b = some ip) : a = b := by
  have hleased := List.inj_on_of_nodup_map h.leased_nodup
  have := hleased (mem_of_lookup ha) (mem_of_lookup hb) rfl
  exact congrArg Prod.fst this

end Inv

/-- What one packet does: the leases that are there stay, and one who is answered holds the lease. -/
theorem serve_list {am : BOOTP_am} {pool : List Text} (h : Inv am pool) (req : Request) :
    (∃ pool', Inv (serve am req).2 pool') ∧ (serve am req).2.reserved = am.reserved ∧
      (∀ mac ip, am.leases.lookup mac = some ip → (serve am req).2.leases.lookup mac = some ip) ∧
      ∀ rep, (serve am req).1 = some rep → (serve am req).2.leases.lookup req.src = some rep.yiaddr := by
  unfold serve
  split
  · rw [make_reply, h.is_list]
    dsimp only
    split
    case h_1 ip hip =>
      -- a client that has a lease is given it again
      refine ⟨⟨pool, h⟩, rfl, fun _ _ hk => hk, ?_⟩
      rintro rep ⟨rfl⟩
      exact hip
    case h_2 hnone =>
      split
      -- the pool is exhausted, and nobody is answered
      case h_1 => exact ⟨⟨pool, h⟩, rfl, fun _ _ hk => hk, by simp⟩
      case h_2 ip hip =>
        refine ⟨⟨pool.dropLast, h.lease hip⟩, rfl, ?_, ?_⟩
        · intro mac k hk
          -- the client of the new lease had none
          have hne : mac ≠ req.src := by
            rintro rfl
            simp [hnone] at hk
          rw [List.lookup_cons, beq_false_of_ne hne]
          exact hk
        · rintro rep ⟨rfl⟩
          simp [reply]
  · exact ⟨⟨pool, h⟩, rfl, fun _ _ hk => hk, by simp⟩

/-- After a run, every answer of it was the lease of its client. -/
theorem answered_list (reqs : List Request) : ∀ {am : BOOTP_am} {pool : List Text}, Inv am pool →
    (∃ pool', Inv (after am reqs) pool') ∧ (after am reqs).reserved = am.reserved ∧
      (∀ mac ip, am.leases.lookup mac = some ip → (after am reqs).leases.lookup mac = some ip) ∧
      ∀ a ∈ answered am reqs, (after am reqs).leases.lookup a.1.src = some a.2.yiaddr := by
  induction reqs with
  | nil =>
    intro am pool h
    exact ⟨⟨pool, h⟩, rfl, fun _ _ hk => hk, by simp [answered]⟩
  | cons req reqs ih =>
    intro am pool h
    obtain ⟨⟨pool', h'⟩, hres, hkeep, hnew⟩ := serve_list h req
    obtain ⟨hinv, hres', hkeep', hans⟩ := ih h'
    refine ⟨hinv, hres'.trans hres, fun mac ip hk => hkeep' mac ip (hkeep mac ip hk), ?_⟩
    rw [answered]
    cases hs : serve am req with
    | mk rep am' =>
      simp only [hs] at hnew hkeep' hans
      simp only [after, List.foldl_cons, hs]
      cases rep with
      | none => exact hans
      | some rep =>
        intro a ha
        rcases List.mem_cons.1 ha with rfl | ha
        · -- what was leased here is leased at the end
          exact hkeep' _ _ (hnew rep rfl)
        · exact hans a ha

/-- Where one address is what there is, it is what everyone gets. -/
theorem answered_single {ip : Text} (reqs : List Request) : ∀ {am : BOOTP_am}, am.pool = .single ip →
    ∀ a ∈ answered am reqs, a.2.yiaddr = ip := by
  induction reqs with
  | nil => simp [answered]
  | cons req reqs ih =>
    intro am h a ha
    have hmake : make_reply am req = (some (reply am.reserved req ip), am) := by
      rw [make_reply, h]
    cases hreq : is_request req with
    | false =>
      simp only [answered, serve, hreq] at ha
      exact ih h a ha
    | true =>
      simp only [answered, serve, hreq, hmake, if_true, List.mem_cons] at ha
      rcases ha with rfl | ha
      · rfl
      · exact ih h a ha

/-! ## The machine -/

namespace Reserved

variable (r : Reserved)

@[simp] theorem mem_left {pool : List Text} {ip : Text} :
    ip ∈ r.left pool ↔ ip ∈ pool ∧ r.holds ip = false := by
  simp [left]

theorem left_nodup {pool : List Text} (h : pool.Nodup) : (r.left pool).Nodup := by
  rw [left, List.nodup_reverse]
  exact h.filter _

end Reserved

/-- The pool of the machine, where its argument can be iterated over. -/
theorem parse_options_of_addresses {reserved : Reserved} {arg : PoolArg} {addrs : List Text}
    (h : arg.addresses = some addrs) :
    ∃ am, parse_options reserved arg = some am ∧ am.reserved = reserved ∧ am.leases = [] ∧
      ((∃ ip, reserved.left addrs = [ip] ∧ am.pool = .single ip) ∨
        (reserved.left addrs).length ≠ 1 ∧ am.pool = .list (reserved.left addrs)) := by
  have hmatch : parse_options reserved arg = some (match reserved.left addrs with
      | [ip] => ⟨.single ip, reserved, []⟩
      | left => ⟨.list left, reserved, []⟩) := by
    cases arg with
    | other pool => simp [PoolArg.addresses] at h
    | text s => simp [parse_options, h]
    | items pool => simp [parse_options, h]
  refine ⟨_, hmatch, ?_⟩
  split
  case h_1 ip hip => exact ⟨rfl, rfl, .inl ⟨ip, hip, rfl⟩⟩
  case h_2 hne =>
    refine ⟨rfl, rfl, .inr ⟨?_, rfl⟩⟩
    intro hlen
    obtain ⟨ip, hip⟩ := List.length_eq_one_iff.1 hlen
    exact hne ip hip

/-- A new machine has leased nothing. -/
theorem Inv.parse_options {am : BOOTP_am} {addrs : List Text} (hleases : am.leases = [])
    (hpool : am.pool = .list (am.reserved.left addrs)) (hn : addrs.Nodup) :
    Inv am (am.reserved.left addrs) where
  is_list := hpool
  pool_nodup := am.reserved.left_nodup hn
  leased_nodup := by simp [hleases]
  apart := by simp [hleases]
  pool_free := fun ip hip => (am.reserved.mem_left.1 hip).2
  leased_free := by simp [hleases]

/-- Over any run of packets one client gets one address, none of them reserved; and two clients get two,
unless one address is all there was to hand out: then everyone gets it. -/
theorem leases_of_answered {arg : PoolArg} {addrs : List Text} {reserved : Reserved} {am : BOOTP_am}
    (ha : arg.addresses = some addrs) (hn : addrs.Nodup) (hp : parse_options reserved arg = some am)
    (reqs : List Request) :
    (∀ a ∈ answered am reqs, reserved.holds a.2.yiaddr = false) ∧
    (∀ a ∈ answered am reqs, ∀ b ∈ answered am reqs, a.1.src = b.1.src → a.2.yiaddr = b.2.yiaddr) ∧
    ((reserved.left addrs).length ≠ 1 →
      ∀ a ∈ answered am reqs, ∀ b ∈ answered am reqs, a.1.src ≠ b.1.src → a.2.yiaddr ≠ b.2.yiaddr) ∧
    (∀ ip, reserved.left addrs = [ip] → ∀ a ∈ answered am reqs, a.2.yiaddr = ip) := by
  obtain ⟨am', hp', rfl, hleases, hpool⟩ := @parse_options_of_addresses reserved _ _ ha
  obtain rfl : am' = am := Option.some.inj (hp'.symm.trans hp)
  rcases hpool with ⟨ip, hleft, hsingle⟩ | ⟨hlen, hlist⟩
  · -- one address, for everyone
    have hall := answered_single reqs hsingle
    have hfree : am'.reserved.holds ip = false := (am'.reserved.mem_left.1 (by rw [hleft]; simp)).2
    refine ⟨fun a h => by rw [hall a h, hfree], fun a h b hb _ => (hall a h).trans (hall b hb).symm, ?_, ?_⟩
    · simp [hleft]
    · intro ip' hleft'
      rw [hleft] at hleft'
      obtain rfl : ip = ip' := by simpa using hleft'
      exact hall
  · obtain ⟨⟨pool', hinv⟩, hres, -, hans⟩ := answered_list reqs (Inv.parse_options hleases hlist hn)
    refine ⟨?_, ?_, ?_, ?_⟩
    · intro a h
      rw [← hres]
      exact hinv.leased_free _ (mem_of_lookup (hans a h))
    · intro a h b hb hsrc
      have hlook := hans a h
      rw [hsrc, hans b hb] at hlook
      exact (Option.some.inj hlook).symm
    · -- an address of two answers is one lease, and one lease has one client
      intro _ a h b hb hsrc hyi
      have hlook := hans a h
      rw [hyi] at hlook
      exact hsrc (hinv.lookup_inj hlook (hans b hb))
    · intro ip hleft
      simp [hleft] at hlen

/-- The default pool and network; two clients, one of them asking twice. -/
theorem leases_of_two_clients :
    let reserved : Reserved := ⟨some "192.168.1.1".toList, "192.168.1.0".toList, "192.168.1.255".toList⟩
    let addrs := ["192.168.1.1".toList, "192.168.1.130".toList, "192.168.1.131".toList]
    let fields : Carried := ⟨1, 6, 0, 0, 0, 0, [], [], []⟩
    let req (src : String) : Request := ⟨src.toList, 68, 67, 1, fields⟩
    let am : BOOTP_am := ⟨.list (reserved.left addrs), reserved, []⟩
    (∀ a ∈ answered am [req "02:00:00:00:00:01", req "02:00:00:00:00:02", req "02:00:00:00:00:01"],
        reserved.holds a.2.yiaddr = false) ∧
      (answered am [req "02:00:00:00:00:01", req "02:00:00:00:00:02", req "02:00:00:00:00:01"]).map
          (fun a => String.ofList a.2.yiaddr) = ["192.168.1.130", "192.168.1.131", "192.168.1.130"] := by
  intro reserved addrs fields req am
  refine ⟨(@leases_of_answered (.items addrs) _ _ _ rfl (by decide) (by decide) _).1, by decide⟩

/-- A pool of one address: two clients are given it. -/
theorem leases_of_one_address :
    ¬ ∀ (arg : PoolArg) (addrs : List Text) (reserved : Reserved) (am : BOOTP_am) (reqs : List Request),
      arg.addresses = some addrs → addrs.Nodup → parse_options reserved arg = some am →
      ∀ a ∈ answered am reqs, ∀ b ∈ answered am reqs, a.1.src ≠ b.1.src → a.2.yiaddr ≠ b.2.yiaddr := by
  intro h
  let pool := ["192.168.1.130".toList]
  let reserved : Reserved := ⟨some "192.168.1.1".toList, "192.168.1.0".toList, "192.168.1.255".toList⟩
  let req (src : String) : Request := ⟨src.toList, 68, 67, 1, ⟨1, 6, 0, 0, 0, 0, [], [], []⟩⟩
  have hapart := h (.items pool) pool reserved ⟨.single "192.168.1.130".toList, reserved, []⟩
    [req "02:00:00:00:00:01", req "02:00:00:00:00:02"] rfl (by decide) (by decide +kernel)
  exact absurd hapart (by decide +kernel)

end Wiry.Answering
