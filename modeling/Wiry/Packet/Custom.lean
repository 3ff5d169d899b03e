/-
Custom layers and bindings of `crates/wiry-core/src/proto.rs`: `register` and
`bind` fill slots counted by `REGISTERED` and `BOUND`, and dissection and
construction look bindings up in the slots filled so far.

A history is any run of such calls, whether they succeed or not. The bindings
found after one are those of its successful calls in their order, which is what
`Registry.binds` holds.
-/
import Wiry.Packet.Proto
import Wiry.Packet.OwnBits

set_option autoImplicit false

namespace Wiry.Packet

open Bits

def BUILTIN_COUNT : ℕ := 8192

def MAX_REGISTERED : ℕ := 1024

def MAX_BINDS : ℕ := 1024

/-- `ProtoId(u16)`. -/
def ProtoId.num : ProtoId → ℕ
  | .Raw => 0
  | .Padding => 1
  | .Ether => 2
  | .Dot1Q => 3
  | .Arp => 4
  | .Ipv4 => 5
  | .Ipv6 => 6
  | .Tcp => 7
  | .Udp => 8
  | .Icmp => 9
  | .Icmpv6 => 10
  | .Dns => 11
  | .Bootp => 12
  | .HopByHop => 17
  | .Routing => 18
  | .Fragment => 19
  | .DestOpt => 20
  | .Gre => 21
  | .Vxlan => 22
  | .Geneve => 23
  | .Mpls => 24
  | .PppoeDisc => 25
  | .Pppoe => 26
  | .Ppp => 27
  | .GtpU => 28
  | .ErspanII => 29
  | .ErspanIII => 30
  | .Llc => 32
  | .Tls => 81
  | .Http => 82
  | .other n => n

/-- `parent_bit`: the place in `BOUND_PARENTS` of a protocol. Ids past 64 share one. -/
def parent_bit (p : ProtoId) : ℕ := p.num % 64

/-- The `static`s that registration fills. -/
structure Custom where
  registry : ℕ → Option (ProtoId × FullDesc)
  registered : ℕ
  binds : ℕ → Option Bind
  bound : ℕ
  /-- `BOUND_PARENTS`, bit by bit. -/
  parents : ℕ → Bool

namespace Custom

/-- Nothing registered and nothing bound. -/
def empty : Custom where
  registry _ := none
  registered := 0
  binds _ := none
  bound := 0
  parents _ := false

/-- `OnceLock::set`: a slot that holds something keeps it. -/
def set_once {α : Type} (slots : ℕ → Option α) (slot : ℕ) (a : α) : ℕ → Option α :=
  fun i => if i = slot then some ((slots i).getD a) else slots i

/-- `register`, with the names of the built-in layers. -/
def register (builtin : List String) (c : Custom) (name : String) (fields : List FieldDesc)
    (build_len : ℕ) : Except String ProtoId × Custom :=
  if name = "" then (.error "layer name must not be empty", c)
  else if name ∈ builtin then (.error (name ++ " is a built-in layer and cannot be redefined"), c)
  else if MAX_REGISTERED ≤ c.registered then
    (.error "no room for more than 1024 custom layers", { c with registered := MAX_REGISTERED })
  else
    let id : ProtoId := .other (BUILTIN_COUNT + c.registered)
    let var_tail := (fields.getLast?.map FieldDesc.kind) = some .VarBytes
    let d : FullDesc :=
      { min_len := build_len
        header_len := if var_tail then List.length else fun _ => 0
        next := fun _ => .Raw
        name, fields, build_len }
    (.ok id, { c with
      registry := set_once c.registry c.registered (id, d)
      registered := c.registered + 1 })

/-- `bind`, its values 64 bits wide. -/
def bind (c : Custom) (parent child : ProtoId) (conds : List (FieldDesc × UInt64)) :
    Except String Unit × Custom :=
  if MAX_BINDS ≤ c.bound then
    (.error "no room for more than 1024 layer bindings", { c with bound := MAX_BINDS })
  else
    (.ok (), { c with
      binds := set_once c.binds c.bound
        { parent, child, conds := conds.map fun p => (p.1, p.2.toNat) }
      bound := c.bound + 1
      parents := fun i => i == parent_bit parent || c.parents i })

/-- `registered_desc`, none standing for `raw::DESC`. -/
def registered_desc (c : Custom) (id : ℕ) : Option (ProtoId × FullDesc) :=
  if id - BUILTIN_COUNT < MAX_REGISTERED then c.registry (id - BUILTIN_COUNT) else none

/-- `registered`: what `by_name` and `known_layers` go through. -/
def registered_layers (c : Custom) : List (ProtoId × FullDesc) :=
  (List.range (min c.registered MAX_REGISTERED)).filterMap c.registry

/-- `by_name`, behind the built-in names: the newest layer of a name shadows the earlier ones. -/
def by_name (c : Custom) (name : String) : Option ProtoId :=
  (c.registered_layers.reverse.find? fun d => d.2.name = name).map Prod.fst

/-- `binds`. -/
def binds_so_far (c : Custom) : List Bind :=
  (List.range (min c.bound MAX_BINDS)).filterMap c.binds

/-- `bound_next`: a layer nothing was bound under skips the search. -/
def bound_next (c : Custom) (parent : ProtoId) (hdr : Bytes) : Option ProtoId :=
  if c.parents (parent_bit parent) = false then none
  else
    (c.binds_so_far.find? fun b =>
      b.parent = parent ∧ b.conds.all fun p => read_uint hdr p.1 == p.2).map Bind.child

/-- `apply_bind`. -/
def apply_bind (c : Custom) (hdr : Bytes) (parent child : ProtoId) : Bytes :=
  if c.parents (parent_bit parent) = false then hdr
  else
    match c.binds_so_far.find? fun b => b.parent = parent ∧ b.child = child with
    | some b => b.conds.foldl (fun hdr p => write_uint hdr p.1 p.2) hdr
    | none => hdr

/-! ## Histories -/

/-- A call that registers a layer or binds one under another. -/
inductive Call where
  | register (name : String) (fields : List FieldDesc) (build_len : ℕ)
  | bind (parent child : ProtoId) (conds : List (FieldDesc × UInt64))

/-- What a call leaves, and whether it succeeds. -/
def call (builtin : List String) (c : Custom) : Call → Bool × Custom
  | .register name fields build_len =>
    let r := c.register builtin name fields build_len
    (r.1.isOk, r.2)
  | .bind parent child conds =>
    let r := c.bind parent child conds
    (r.1.isOk, r.2)

/-- What a run of calls leaves. -/
def after (builtin : List String) (calls : List Call) : Custom :=
  calls.foldl (fun c x => (c.call builtin x).2) empty

/-- The binding a call makes where it succeeds. -/
def Call.binding : Call → Option Bind
  | .register _ _ _ => none
  | .bind parent child conds => some { parent, child, conds := conds.map fun p => (p.1, p.2.toNat) }

/-- The bindings of the calls that succeed, in their order. -/
def bound_by (builtin : List String) : Custom → List Call → List Bind
  | _, [] => []
  | c, x :: calls =>
    (if (c.call builtin x).1 then x.binding.toList else []) ++ bound_by builtin (c.call builtin x).2 calls

/-- What every history keeps: no slot from the counter on is filled, every parent that something is bound
under has its bit, and every value 64 of them. -/
structure Valid (c : Custom) : Prop where
  bound_le : c.bound ≤ MAX_BINDS
  free : ∀ i, c.bound ≤ i → c.binds i = none
  parents_of : ∀ i b, c.binds i = some b → c.parents (parent_bit b.parent) = true
  narrow : ∀ i b, c.binds i = some b → ∀ p ∈ b.conds, p.2 < 2 ^ 64

theorem valid_empty : empty.Valid where
  bound_le := Nat.zero_le _
  free _ _ := rfl
  parents_of _ _ h := nomatch h
  narrow _ _ h := nomatch h

/-- A call that registers a layer keeps the tables valid, whether it succeeds or not. -/
theorem Valid.register {c : Custom} (hc : c.Valid) (builtin : List String) (name : String)
    (fields : List FieldDesc) (build_len : ℕ) :
    (c.register builtin name fields build_len).2.Valid := by
  obtain ⟨hle, hfree, hparents, hnarrow⟩ := hc
  unfold Custom.register
  split
  · exact ⟨hle, hfree, hparents, hnarrow⟩
  · split
    · exact ⟨hle, hfree, hparents, hnarrow⟩
    · split
      · exact ⟨hle, hfree, hparents, hnarrow⟩
      · exact ⟨hle, hfree, hparents, hnarrow⟩

/-- What a call of `bind` that finds room leaves in the slots. -/
theorem set_once_of_free {α : Type} {slots : ℕ → Option α} {slot : ℕ} (h : slots slot = none) (a : α)
    (i : ℕ) : set_once slots slot a i = if i = slot then some a else slots i := by
  unfold set_once
  by_cases hi : i = slot
  · rw [if_pos hi, if_pos hi, hi, h, Option.getD_none]
  · rw [if_neg hi, if_neg hi]

/-- So does a call that binds one. -/
theorem Valid.bind {c : Custom} (hc : c.Valid) (parent child : ProtoId)
    (conds : List (FieldDesc × UInt64)) : (c.bind parent child conds).2.Valid := by
  unfold Custom.bind
  split
  -- With all slots filled the call fails and changes nothing.
  · rename_i hfull
    have hsame : c.bound = MAX_BINDS := Nat.le_antisymm hc.bound_le hfull
    exact ⟨le_rfl, fun i hi => hc.free i (hsame ▸ hi), hc.parents_of, hc.narrow⟩
  -- Otherwise the next free slot is filled, and the parent's bit is set with it.
  · rename_i hroom
    have hset := set_once_of_free (hc.free c.bound le_rfl)
      (Bind.mk parent child (conds.map fun p => (p.1, p.2.toNat)))
    refine ⟨?_, ?_, ?_, ?_⟩
    · dsimp only
      omega
    · intro i hi
      dsimp only at hi ⊢
      rw [hset, if_neg (by omega)]
      exact hc.free i (by omega)
    · intro i b hb
      dsimp only at hb ⊢
      rw [hset] at hb
      split at hb
      · rw [← Option.some.inj hb]
        simp
      · rw [hc.parents_of i b hb, Bool.or_true]
    · intro i b hb p hp
      dsimp only at hb
      rw [hset] at hb
      split at hb
      · rw [← Option.some.inj hb] at hp
        obtain ⟨q, -, rfl⟩ := List.mem_map.1 hp
        exact q.2.toNat_lt
      · exact hc.narrow i b hb p hp

/-- And stay so through each. -/
theorem Valid.call {c : Custom} (hc : c.Valid) (builtin : List String) (x : Call) :
    (c.call builtin x).2.Valid := by
  cases x with
  | register name fields build_len => exact hc.register builtin name fields build_len
  | bind parent child conds => exact hc.bind parent child conds

/-- **Every history keeps the slots in order.** -/
theorem valid_after (builtin : List String) (calls : List Call) : (after builtin calls).Valid := by
  induction calls using List.reverseRecOn with
  | nil => exact valid_empty
  | append_singleton calls x ih =>
    rw [after, List.foldl_append, List.foldl_cons, List.foldl_nil]
    exact ih.call builtin x

/-- A call that succeeds puts its binding behind those there are, and one that fails changes none. -/
theorem Valid.binds_call {c : Custom} (hc : c.Valid) (builtin : List String) (x : Call) :
    (c.call builtin x).2.binds_so_far =
      c.binds_so_far ++ if (c.call builtin x).1 then x.binding.toList else [] := by
  cases x with
  | register name fields build_len =>
    -- registering a layer touches no binding
    have hsame : (c.register builtin name fields build_len).2.binds_so_far = c.binds_so_far := by
      unfold Custom.register
      split
      · rfl
      · split
        · rfl
        · split
          · rfl
          · rfl
    have hnone : (if (c.call builtin (.register name fields build_len)).1 then
        (Call.register name fields build_len).binding.toList else []) = ([] : List Bind) := ite_self _
    rw [hnone, List.append_nil]
    exact hsame
  | bind parent child conds =>
    change (c.bind parent child conds).2.binds_so_far = c.binds_so_far ++
      if (c.bind parent child conds).1.isOk then
        [Bind.mk parent child (conds.map fun p => (p.1, p.2.toNat))] else []
    unfold Custom.bind
    split
    · rename_i hfull
      have hsame : c.bound = MAX_BINDS := Nat.le_antisymm hc.bound_le hfull
      unfold binds_so_far
      rw [hsame]
      exact (List.append_nil _).symm
    · rename_i hroom
      have hset := set_once_of_free (hc.free c.bound le_rfl)
        (Bind.mk parent child (conds.map fun p => (p.1, p.2.toNat)))
      have hold : (List.range c.bound).filterMap (set_once c.binds c.bound
          (Bind.mk parent child (conds.map fun p => (p.1, p.2.toNat)))) =
          (List.range c.bound).filterMap c.binds := by
        apply List.filterMap_congr
        intro i hi
        rw [hset, if_neg (List.mem_range.1 hi).ne]
      unfold binds_so_far
      dsimp only
      rw [Nat.min_eq_left (by omega), Nat.min_eq_left (by omega), List.range_succ, List.filterMap_append,
        hold]
      congr 1
      rw [List.filterMap_cons, hset, if_pos rfl]
      rfl

/-- **The bindings there are after a history are those of its calls that succeeded, in their order.** -/
theorem binds_after (builtin : List String) (calls : List Call) :
    (after builtin calls).binds_so_far = bound_by builtin empty calls := by
  have hfrom : ∀ (calls : List Call) (c : Custom), c.Valid →
      (calls.foldl (fun c x => (c.call builtin x).2) c).binds_so_far =
        c.binds_so_far ++ bound_by builtin c calls := by
    intro calls
    induction calls with
    | nil =>
      intro c _
      exact (List.append_nil _).symm
    | cons x calls ih =>
      intro c hc
      rw [List.foldl_cons, ih _ (hc.call builtin x), hc.binds_call builtin x, List.append_assoc, bound_by]
  exact (hfrom calls empty valid_empty).trans (List.nil_append _)

theorem Valid.mem {c : Custom} (hc : c.Valid) {b : Bind} (hb : b ∈ c.binds_so_far) :
    c.parents (parent_bit b.parent) = true ∧ ∀ p ∈ b.conds, p.2 < 2 ^ 64 := by
  obtain ⟨i, -, hi⟩ := List.mem_filterMap.1 hb
  exact ⟨hc.parents_of i b hi, hc.narrow i b hi⟩

/-- **The bit of a parent never hides a binding**: a search it saves would find nothing. -/
theorem Valid.bound_next_eq {c : Custom} (hc : c.Valid) {R : Registry} (hR : R.binds = c.binds_so_far)
    (parent : ProtoId) (hdr : Bytes) : c.bound_next parent hdr = R.bound_next parent hdr := by
  unfold Custom.bound_next Registry.bound_next
  rw [hR]
  split
  · rename_i hbit
    rw [List.find?_eq_none.2, Option.map_none]
    intro b hb hfound
    have hparent : b.parent = parent := (of_decide_eq_true hfound).1
    rw [← hparent, (hc.mem hb).1] at hbit
    exact absurd hbit Bool.true_eq_false.mp
  · rfl

/-- The lookup over the slots is the lookup over the list of bindings made so far. -/
theorem Valid.apply_bind_eq {c : Custom} (hc : c.Valid) {R : Registry} (hR : R.binds = c.binds_so_far)
    (hdr : Bytes) (parent child : ProtoId) :
    c.apply_bind hdr parent child = R.apply_bind hdr parent child := by
  unfold Custom.apply_bind Registry.apply_bind
  rw [hR]
  split
  · rename_i hbit
    rw [List.find?_eq_none.2]
    intro b hb hfound
    have hparent : b.parent = parent := (of_decide_eq_true hfound).1
    rw [← hparent, (hc.mem hb).1] at hbit
    exact absurd hbit Bool.true_eq_false.mp
  · rfl

end Custom

end Wiry.Packet
