/-
Custom bindings dissect what they build: what `apply_bind` writes is what
`bound_next` looks for, and a call that fails leaves every lookup as it was.

The conditions of one binding are written one after the other. `bit_write_conds`
says what the whole run leaves at every bit, so that the order they come in does
not matter where no two of them ask for different values of one bit.
-/
import Wiry.Packet.Custom

set_option autoImplicit false

namespace Wiry.Packet

open Bits

namespace Bind

/-- The header meets every condition of the binding. -/
def Meets (b : Bind) (hdr : Bytes) : Prop := ∀ p ∈ b.conds, read_uint hdr p.1 = p.2

/-- Some header of `n` octets meets the conditions of both. -/
def Compatible (b b' : Bind) (n : ℕ) : Prop :=
  ∃ hdr : Bytes, hdr.length = n ∧ b.Meets hdr ∧ b'.Meets hdr

/-- Every condition value fits its field. -/
def Fits (b : Bind) : Prop := ∀ p ∈ b.conds, p.2 < 2 ^ p.1.bit_len

/-- A header of `n` octets has room for what the binding asks: it holds each field that is not to
be zero, and no two conditions ask for different values of one bit. -/
structure Writable (b : Bind) (n : ℕ) : Prop where
  held : ∀ p ∈ b.conds, p.1.Held n ∨ p.2 = 0
  agree : ∀ p ∈ b.conds, ∀ q ∈ b.conds, p.1.Held n → q.1.Held n → ∀ k < p.1.bit_len,
    ∀ l < q.1.bit_len, p.1.place k = q.1.place l → p.2.testBit k = q.2.testBit l

end Bind

/-- The conditions of a binding, written one after the other. -/
def write_conds (conds : List (FieldDesc × ℕ)) (hdr : Bytes) : Bytes :=
  conds.foldl (fun hdr p => write_uint hdr p.1 p.2) hdr

theorem write_conds_concat (conds : List (FieldDesc × ℕ)) (p : FieldDesc × ℕ) (hdr : Bytes) :
    write_conds (conds ++ [p]) hdr = write_uint (write_conds conds hdr) p.1 p.2 := by
  rw [write_conds, List.foldl_append]
  rfl

@[simp] theorem length_write_conds (conds : List (FieldDesc × ℕ)) (hdr : Bytes) :
    (write_conds conds hdr).length = hdr.length := by
  induction conds using List.reverseRecOn with
  | nil => rfl
  | append_singleton conds p ih => rw [write_conds_concat, length_write_uint, ih]

/-- **Every bit is one that some condition asked for, or no condition's and as before.** -/
theorem bit_write_conds {conds : List (FieldDesc × ℕ)} (hnarrow : ∀ p ∈ conds, p.2 < 2 ^ 64)
    (hdr : Bytes) (j : ℕ) :
    (∃ p ∈ conds, p.1.Held hdr.length ∧ ∃ k < p.1.bit_len, p.1.place k = j ∧
        bit (write_conds conds hdr) j = p.2.testBit k) ∨
      ((∀ p ∈ conds, p.1.Held hdr.length → ¬p.1.Own j) ∧
        bit (write_conds conds hdr) j = bit hdr j) := by
  induction conds using List.reverseRecOn with
  | nil => exact Or.inr ⟨nofun, rfl⟩
  | append_singleton conds p ih =>
    have hp : p.2 < 2 ^ 64 := hnarrow p (by simp)
    have hlen := length_write_conds conds hdr
    rw [write_conds_concat]
    by_cases hheld : p.1.Held hdr.length
    · by_cases hown : p.1.Own j
      · -- the last condition has the last word
        obtain ⟨k, hk, rfl⟩ := hown
        refine Or.inl ⟨p, by simp, hheld, k, hk, rfl, ?_⟩
        exact bit_write_uint_place (hlen.symm ▸ hheld) hp hk
      · rw [bit_write_uint_of_not_own _ _ hown]
        rcases ih fun q hq => hnarrow q (List.mem_append_left _ hq) with ⟨q, hq, hasked⟩ | ⟨hnone, hsame⟩
        · exact Or.inl ⟨q, List.mem_append_left _ hq, hasked⟩
        · refine Or.inr ⟨?_, hsame⟩
          intro q hq hq_held
          rcases List.mem_append.1 hq with hq | hq
          · exact hnone q hq hq_held
          · rw [List.mem_singleton.1 hq]
            exact hown
    · rw [write_uint_of_not_held (hlen.symm ▸ hheld)]
      rcases ih fun q hq => hnarrow q (List.mem_append_left _ hq) with ⟨q, hq, hasked⟩ | ⟨hnone, hsame⟩
      · exact Or.inl ⟨q, List.mem_append_left _ hq, hasked⟩
      · refine Or.inr ⟨?_, hsame⟩
        intro q hq hq_held
        rcases List.mem_append.1 hq with hq | hq
        · exact hnone q hq hq_held
        · rw [List.mem_singleton.1 hq] at hq_held
          exact absurd hq_held hheld

/-- Bits of no condition's field stay. -/
theorem bit_write_conds_of_apart {conds : List (FieldDesc × ℕ)} (hdr : Bytes) {j : ℕ}
    (hj : ∀ p ∈ conds, ¬p.1.Own j) : bit (write_conds conds hdr) j = bit hdr j := by
  induction conds using List.reverseRecOn with
  | nil => rfl
  | append_singleton conds p ih =>
    rw [write_conds_concat, bit_write_uint_of_not_own _ _ (hj p (by simp)),
      ih fun q hq => hj q (List.mem_append_left _ hq)]

/-- **What a binding writes meets its conditions**, where the header has room for it. -/
theorem Bind.meets_write_conds {b : Bind} (hnarrow : ∀ p ∈ b.conds, p.2 < 2 ^ 64) (hfits : b.Fits)
    {hdr : Bytes} (hwrite : b.Writable hdr.length) : b.Meets (write_conds b.conds hdr) := by
  intro p hp
  have hlen := length_write_conds b.conds hdr
  by_cases hheld : p.1.Held hdr.length
  · have hwidth : p.2 < 2 ^ min p.1.bit_len 64 := by
      rcases Nat.le_total p.1.bit_len 64 with hle | hle
      · rw [Nat.min_eq_left hle]
        exact hfits p hp
      · rw [Nat.min_eq_right hle]
        exact hnarrow p hp
    apply (read_uint_eq_iff (hlen.symm ▸ hheld) hwidth).2
    intro k hk
    have hk' : k < p.1.bit_len := by omega
    rcases bit_write_conds hnarrow hdr (p.1.place k) with ⟨q, hq, hq_held, l, hl, hplace, hbit⟩ | ⟨hnone, -⟩
    · rw [hbit]
      exact (hwrite.agree p hp q hq hheld hq_held k hk' l hl hplace.symm).symm
    · exact absurd ⟨k, hk', rfl⟩ (hnone p hp hheld)
  · rcases hwrite.held p hp with hheld' | hzero
    · exact absurd hheld' hheld
    · rw [read_uint_of_not_held (hlen.symm ▸ hheld), hzero]

/-- The search stops at the first binding whose conditions the header meets. -/
theorem find_of_first {front back : List Bind} {b : Bind} {hdr : Bytes} (hb : b.Meets hdr)
    (hearlier : ∀ b' ∈ front, b'.parent = b.parent → ¬b'.Meets hdr) :
    (front ++ b :: back).find? (fun b' =>
      b'.parent = b.parent ∧ b'.conds.all fun p => read_uint hdr p.1 == p.2) = some b := by
  rw [List.find?_append, List.find?_eq_none.2, Option.none_or, List.find?_cons_of_pos]
  · have hall : (b.conds.all fun p => read_uint hdr p.1 == p.2) = true :=
      List.all_eq_true.2 fun p hp => beq_iff_eq.2 (hb p hp)
    exact decide_eq_true ⟨rfl, hall⟩
  · intro b' hb' hfound
    obtain ⟨hparent, hall⟩ := of_decide_eq_true hfound
    apply hearlier b' hb' hparent
    intro p hp
    exact beq_iff_eq.1 (List.all_eq_true.1 hall p hp)

namespace Custom

/-- Every lookup of a registered layer or a binding answers alike. -/
structure SameLookups (c c' : Custom) : Prop where
  registered_desc : ∀ id, c'.registered_desc id = c.registered_desc id
  registered_layers : c'.registered_layers = c.registered_layers
  by_name : ∀ name, c'.by_name name = c.by_name name
  bound_next : ∀ parent hdr, c'.bound_next parent hdr = c.bound_next parent hdr
  apply_bind : ∀ hdr parent child, c'.apply_bind hdr parent child = c.apply_bind hdr parent child

theorem SameLookups.refl (c : Custom) : c.SameLookups c :=
  ⟨fun _ => rfl, rfl, fun _ => rfl, fun _ _ => rfl, fun _ _ _ => rfl⟩

/-- A counter past its maximum reads as the maximum. -/
theorem same_lookups_of_registered {c : Custom} (hfull : MAX_REGISTERED ≤ c.registered) :
    c.SameLookups { c with registered := MAX_REGISTERED } := by
  have hlist : Custom.registered_layers { c with registered := MAX_REGISTERED } =
      c.registered_layers := by
    unfold Custom.registered_layers
    rw [Nat.min_eq_right hfull, Nat.min_self]
  refine ⟨fun _ => rfl, hlist, ?_, fun _ _ => rfl, fun _ _ _ => rfl⟩
  intro name
  unfold Custom.by_name
  rw [hlist]

/-- Bindings past the limit are never looked at, so cutting them off changes no lookup. -/
theorem same_lookups_of_bound {c : Custom} (hfull : MAX_BINDS ≤ c.bound) :
    c.SameLookups { c with bound := MAX_BINDS } := by
  have hlist : Custom.binds_so_far { c with bound := MAX_BINDS } = c.binds_so_far := by
    unfold binds_so_far
    rw [Nat.min_eq_right hfull, Nat.min_self]
  refine ⟨fun _ => rfl, rfl, fun _ => rfl, ?_, ?_⟩
  · intro parent hdr
    unfold Custom.bound_next
    rw [hlist]
  · intro hdr parent child
    unfold Custom.apply_bind
    rw [hlist]

/-- A call that fails leaves every lookup, whatever the counters had overshot to. -/
theorem same_lookups_of_failed {builtin : List String} {c : Custom} {x : Call}
    (hfail : (c.call builtin x).1 = false) : c.SameLookups (c.call builtin x).2 := by
  cases x with
  | register name fields build_len =>
    unfold Custom.call register at hfail ⊢
    by_cases hname : name = ""
    · simp only [if_pos hname]
      exact SameLookups.refl c
    · by_cases hbuiltin : name ∈ builtin
      · simp only [if_neg hname, if_pos hbuiltin]
        exact SameLookups.refl c
      · by_cases hfull : MAX_REGISTERED ≤ c.registered
        · simp only [if_neg hname, if_neg hbuiltin, if_pos hfull]
          exact same_lookups_of_registered hfull
        · simp only [if_neg hname, if_neg hbuiltin, if_neg hfull] at hfail
          exact absurd hfail Bool.noConfusion
  | bind parent child conds =>
    unfold Custom.call bind at hfail ⊢
    by_cases hfull : MAX_BINDS ≤ c.bound
    · simp only [if_pos hfull]
      exact same_lookups_of_bound hfull
    · simp only [if_neg hfull] at hfail
      exact absurd hfail Bool.noConfusion

/-- What `apply_bind` writes is the first binding of the two. -/
theorem apply_bind_first {c : Custom} (hc : c.Valid) {front back : List Bind} {b : Bind}
    (hbinds : c.binds_so_far = front ++ b :: back)
    (hfirst : ∀ b' ∈ front, ¬(b'.parent = b.parent ∧ b'.child = b.child)) (hdr : Bytes) :
    c.apply_bind hdr b.parent b.child = write_conds b.conds hdr := by
  have hmem : b ∈ c.binds_so_far := by
    rw [hbinds]
    simp
  have hfound : (front ++ b :: back).find? (fun b' =>
      b'.parent = b.parent ∧ b'.child = b.child) = some b := by
    rw [List.find?_append, List.find?_eq_none.2, Option.none_or, List.find?_cons_of_pos]
    · exact decide_eq_true ⟨rfl, rfl⟩
    · intro b' hb' hfound
      exact hfirst b' hb' (of_decide_eq_true hfound)
  unfold Custom.apply_bind
  rw [(hc.mem hmem).1, if_neg Bool.noConfusion, hbinds, hfound]
  rfl

/-- **Custom bindings dissect what they build, and a call that fails changes no lookup.** `b` is the
first binding of its child under its parent, and no header of that length meets its conditions and
those of an earlier binding of that parent. -/
theorem custom_bindings_dissect (builtin : List String) :
    (∀ (calls : List Call) (front back : List Bind) (b : Bind) (hdr : Bytes),
      (after builtin calls).binds_so_far = front ++ b :: back →
      (∀ b' ∈ front, ¬(b'.parent = b.parent ∧ b'.child = b.child)) →
      b.Fits → b.Writable hdr.length →
      (∀ b' ∈ front, b'.parent = b.parent → ¬b'.Compatible b hdr.length) →
      (after builtin calls).bound_next b.parent
          ((after builtin calls).apply_bind hdr b.parent b.child) = some b.child ∧
        ((after builtin calls).apply_bind hdr b.parent b.child).length = hdr.length ∧
        ∀ j, (∀ p ∈ b.conds, ¬p.1.Own j) →
          bit ((after builtin calls).apply_bind hdr b.parent b.child) j = bit hdr j) ∧
    ∀ (c : Custom) (x : Call), (c.call builtin x).1 = false →
      c.SameLookups (c.call builtin x).2 := by
  refine ⟨?_, fun _ _ => same_lookups_of_failed⟩
  intro calls front back b hdr hbinds hfirst hfits hwrite hearlier
  have hvalid := valid_after builtin calls
  have hmem : b ∈ (after builtin calls).binds_so_far := by
    rw [hbinds]
    simp
  obtain ⟨hbit, hnarrow⟩ := hvalid.mem hmem
  have hmeets := b.meets_write_conds hnarrow hfits hwrite
  have hlen := length_write_conds b.conds hdr
  rw [apply_bind_first hvalid hbinds hfirst]
  refine ⟨?_, hlen, fun j hj => bit_write_conds_of_apart hdr hj⟩
  -- No earlier binding of the parent meets the header that was written.
  have hnot : ∀ b' ∈ front, b'.parent = b.parent → ¬b'.Meets (write_conds b.conds hdr) := by
    intro b' hb' hparent hmeets'
    exact hearlier b' hb' hparent ⟨_, hlen, hmeets', hmeets⟩
  unfold Custom.bound_next
  rw [hbit, if_neg Bool.noConfusion, hbinds, find_of_first hmeets hnot]
  rfl

/-- UDP's destination port. -/
def sample_dport : FieldDesc := .uint "dport" 16 16 53

/-- A registered layer bound under UDP by its port. -/
def sample_bind : Call := .bind .Udp (.other 8192) [(sample_dport, 4660)]

/-- One binding on a destination port: built, then dissected. -/
theorem custom_bindings_dissect_dport :
    (after [] [sample_bind]).bound_next .Udp
        ((after [] [sample_bind]).apply_bind (List.replicate 8 0) .Udp (.other 8192)) =
      some (.other 8192) := by
  have hfits : (Bind.mk .Udp (.other 8192) [(sample_dport, 4660)]).Fits := by
    intro p hp
    rw [List.mem_singleton.1 hp]
    decide
  have hwrite : (Bind.mk .Udp (.other 8192) [(sample_dport, 4660)]).Writable 8 := by
    refine ⟨?_, ?_⟩
    · intro p hp
      rw [List.mem_singleton.1 hp]
      exact Or.inl (by decide)
    · intro p hp q hq hheld hheld' k hk l hl hplace
      rw [List.mem_singleton.1 hp] at hheld hk hplace ⊢
      rw [List.mem_singleton.1 hq] at hl hplace ⊢
      rw [FieldDesc.place_inj hheld hk hl hplace]
  exact ((custom_bindings_dissect []).1 [sample_bind] [] []
    (Bind.mk .Udp (.other 8192) [(sample_dport, 4660)]) (List.replicate 8 0) rfl
    (fun _ hb => absurd hb List.not_mem_nil) hfits hwrite fun _ hb => absurd hb List.not_mem_nil).1

/-- **A header too short for the port takes no write**, and its binding is not found. -/
theorem short_header_keeps_no_binding :
    (Bind.mk .Udp (.other 8192) [(sample_dport, 4660)]).Fits ∧
      (after [] [sample_bind]).binds_so_far =
        [Bind.mk .Udp (.other 8192) [(sample_dport, 4660)]] ∧
      (after [] [sample_bind]).apply_bind [0, 0] .Udp (.other 8192) = [0, 0] ∧
      (after [] [sample_bind]).bound_next .Udp
        ((after [] [sample_bind]).apply_bind [0, 0] .Udp (.other 8192)) = none := by
  refine ⟨?_, rfl, by decide, by decide⟩
  intro p hp
  rw [List.mem_singleton.1 hp]
  decide

end Custom

end Wiry.Packet
