/-
Tables whose entries carry the time they were last touched, and the queue of
touches an eviction reads: a touch is appended, never moved, so the queue holds
stale touches beside the current ones. Nothing here names a program.
-/
import Mathlib.Data.List.AList
import Mathlib.Algebra.BigOperators.Group.List.Basic

set_option autoImplicit false

namespace Wiry.Recency

variable {κ ν M : Type} [DecidableEq κ] [AddCommMonoid M]

/-! ## Weights -/

/-- The total weight of a table's entries: of numbers where something is counted, of multisets
where the entries themselves are. -/
def weight (w : ν → M) (t : AList fun _ : κ => ν) : M := (t.entries.map fun e => w e.2).sum

omit [DecidableEq κ] in
@[simp] theorem weight_empty (w : ν → M) : weight w (∅ : AList fun _ : κ => ν) = 0 := rfl

omit [DecidableEq κ] [AddCommMonoid M] in
/-- The number of entries is their weight when each weighs one. -/
theorem length_keys (t : AList fun _ : κ => ν) : t.keys.length = weight (fun _ => 1) t := by
  simp [weight, AList.keys, List.keys]

/-- What leaves a table takes its weight with it. -/
theorem weight_erase (w : ν → M) {t : AList fun _ : κ => ν} {k : κ} {v : ν}
    (h : t.lookup k = some v) : weight w t = weight w (t.erase k) + w v := by
  have hk : k ∈ t.entries.keys := by
    rw [← List.dlookup_isSome]
    exact Option.isSome_of_mem h
  obtain ⟨v', before, after, hnew, hsplit, herase⟩ := List.exists_of_kerase hk
  -- the entry found under `k` is the one the erasure takes out
  have hv : v' = v := by
    have hmem : (⟨k, v'⟩ : Sigma fun _ : κ => ν) ∈ t.entries := by simp [hsplit]
    have hlook : t.lookup k = some v' := List.mem_dlookup t.nodupKeys hmem
    exact Option.some.inj (hlook.symm.trans h)
  subst hv
  have hleft : (t.erase k).entries = before ++ after := herase
  rw [weight, weight, hleft, hsplit]
  simp only [List.map_append, List.map_cons, List.sum_append, List.sum_cons]
  rw [add_assoc, add_comm (w v')]

theorem erase_of_lookup_none {t : AList fun _ : κ => ν} {k : κ} (h : t.lookup k = none) :
    t.erase k = t := by
  apply AList.ext
  exact List.kerase_of_notMem_keys (AList.lookup_eq_none.1 h)

/-- The weight after an insertion. -/
theorem weight_insert (w : ν → M) (t : AList fun _ : κ => ν) (k : κ) (v : ν) :
    weight w (t.insert k v) = weight w (t.erase k) + w v := by
  have hentries : (t.insert k v).entries = ⟨k, v⟩ :: (t.erase k).entries := AList.entries_insert
  rw [weight, weight, hentries, List.map_cons, List.sum_cons]
  exact add_comm _ _

/-- An entry written over one of the table changes the total by the difference of the two. -/
theorem weight_replace (w : ν → M) {t : AList fun _ : κ => ν} {k : κ} {v : ν}
    (h : t.lookup k = some v) (v' : ν) :
    weight w (t.insert k v') + w v = weight w t + w v' := by
  rw [weight_insert, weight_erase w h, add_right_comm]

theorem weight_new (w : ν → M) {t : AList fun _ : κ => ν} {k : κ} (h : t.lookup k = none) (v : ν) :
    weight w (t.insert k v) = weight w t + w v := by
  rw [weight_insert, erase_of_lookup_none h]

theorem weight_ge (w : ν → ℕ) {t : AList fun _ : κ => ν} {k : κ} {v : ν}
    (h : t.lookup k = some v) : w v ≤ weight w t := by
  rw [weight_erase w h]
  omega

/-- Entries of bounded weight weigh no more than so many times the bound. -/
theorem weight_le (w : ν → ℕ) {t : AList fun _ : κ => ν} {b : ℕ}
    (h : ∀ k v, t.lookup k = some v → w v ≤ b) : weight w t ≤ t.keys.length * b := by
  have hentries : ∀ e ∈ t.entries, w e.2 ≤ b :=
    fun e he => h e.1 e.2 (List.mem_dlookup t.nodupKeys he)
  rw [weight, AList.keys, List.keys, List.length_map]
  generalize t.entries = entries at hentries
  induction entries with
  | nil => exact Nat.zero_le _
  | cons e entries ih =>
    have hrest := ih fun e' he' => hentries e' (List.mem_cons_of_mem _ he')
    have hfirst := hentries e List.mem_cons_self
    rw [List.map_cons, List.sum_cons, List.length_cons, Nat.succ_mul]
    omega

theorem eq_empty_of_lookup {t : AList fun _ : κ => ν} (h : ∀ k, t.lookup k = none) : t = ∅ := by
  apply AList.ext
  rcases hentries : t.entries with - | ⟨e, rest⟩
  · rfl
  · -- the first entry would be found under its own key
    have hfound : t.lookup e.1 = some e.2 :=
      List.mem_dlookup t.nodupKeys (by simp [hentries])
    rw [h e.1] at hfound
    exact absurd hfound nofun

omit [DecidableEq κ] in
theorem lookup_of_mem_entries [DecidableEq κ] {t : AList fun _ : κ => ν} {e : Sigma fun _ : κ => ν}
    (h : e ∈ t.entries) : t.lookup e.1 = some e.2 :=
  List.mem_dlookup t.nodupKeys h

/-- The total weight, key by key in any order. -/
theorem weight_eq_sum (w : ν → M) {t : AList fun _ : κ => ν} {keys : List κ}
    (h : keys.Perm t.keys) : weight w t = (keys.map fun k => (t.lookup k).elim 0 w).sum := by
  have hentries : t.keys.map (fun k => (t.lookup k).elim 0 w) = t.entries.map fun e => w e.2 := by
    rw [AList.keys, List.keys, List.map_map]
    apply List.map_congr_left
    intro e he
    rw [Function.comp_apply, lookup_of_mem_entries he]
    rfl
  rw [(h.map _).sum_eq, hentries]
  rfl

/-! ## The queue of touches -/

/-- A queue entry is current when the entry it names was last touched at its time. -/
def current (stamp : ν → ℕ) (t : AList fun _ : κ => ν) (x : ℕ × κ) : Bool :=
  (t.lookup x.2).any fun v => stamp v == x.1

theorem current_iff {stamp : ν → ℕ} {t : AList fun _ : κ => ν} {x : ℕ × κ} :
    current stamp t x = true ↔ ∃ v, t.lookup x.2 = some v ∧ stamp v = x.1 := by
  simp [current, Option.any_eq_true]

/-- What a queue of touches is to a table: its times increase and lie in the past, and the last
touch of each entry is in it. -/
structure Tracks (stamp : ν → ℕ) (t : AList fun _ : κ => ν) (order : List (ℕ × κ)) (clock : ℕ) :
    Prop where
  sorted : order.Pairwise fun x y => x.1 < y.1
  past : ∀ x ∈ order, x.1 < clock
  held : ∀ k v, t.lookup k = some v → (stamp v, k) ∈ order

namespace Tracks

variable {stamp : ν → ℕ} {t : AList fun _ : κ => ν} {order rest : List (ℕ × κ)} {clock s : ℕ} {k : κ}

theorem init : Tracks stamp (∅ : AList fun _ : κ => ν) [] 0 where
  sorted := List.Pairwise.nil
  past := by simp
  held := fun k v h => by simp at h

/-- A touch at the clock's time goes to the back. -/
theorem touch (h : Tracks stamp t order clock) {v : ν} (hv : stamp v = clock) (k : κ) :
    Tracks stamp (t.insert k v) (order ++ [(clock, k)]) (clock + 1) where
  sorted := by
    rw [List.pairwise_append]
    refine ⟨h.sorted, List.pairwise_singleton _ _, ?_⟩
    intro x hx y hy
    rw [List.mem_singleton.1 hy]
    exact h.past x hx
  past := by
    intro x hx
    rcases List.mem_append.1 hx with hx | hx
    · exact Nat.lt_succ_of_lt (h.past x hx)
    · rw [List.mem_singleton.1 hx]
      exact Nat.lt_succ_self clock
  held := by
    intro k' v' hlook
    -- The key touched has the new stamp, the others keep theirs.
    by_cases hk : k' = k
    · subst hk
      rw [AList.lookup_insert] at hlook
      rw [← Option.some.inj hlook, hv]
      exact List.mem_append_right _ (List.mem_singleton.2 rfl)
    · rw [AList.lookup_insert_ne hk] at hlook
      exact List.mem_append_left _ (h.held k' v' hlook)

/-- An entry may change as long as its last touch does not. -/
theorem replace (h : Tracks stamp t order clock) {v v' : ν} (hlook : t.lookup k = some v)
    (hv : stamp v' = stamp v) : Tracks stamp (t.insert k v') order clock where
  sorted := h.sorted
  past := h.past
  held := by
    intro k' u hu
    by_cases hk : k' = k
    · subst hk
      rw [AList.lookup_insert] at hu
      rw [← Option.some.inj hu, hv]
      exact h.held k' v hlook
    · rw [AList.lookup_insert_ne hk] at hu
      exact h.held k' u hu

/-- A stale front names no entry's last touch, so it can go. -/
theorem pop_stale (h : Tracks stamp t ((s, k) :: rest) clock)
    (hstale : ∀ v, t.lookup k = some v → stamp v ≠ s) : Tracks stamp t rest clock where
  sorted := h.sorted.of_cons
  past := fun x hx => h.past x (List.mem_cons_of_mem _ hx)
  held := by
    intro k' v hlook
    rcases List.mem_cons.1 (h.held k' v hlook) with heq | hmem
    · obtain ⟨hs, rfl⟩ : stamp v = s ∧ k' = k := by simpa using heq
      exact absurd hs (hstale v hlook)
    · exact hmem

/-- An entry can go whenever it likes: what is left of it in the queue is stale. -/
theorem erase (h : Tracks stamp t order clock) (k : κ) : Tracks stamp (t.erase k) order clock where
  sorted := h.sorted
  past := h.past
  held := by
    intro k' v hlook
    by_cases hk : k' = k
    · rw [hk, AList.lookup_erase] at hlook
      exact absurd hlook nofun
    · rw [AList.lookup_erase_ne hk] at hlook
      exact h.held k' v hlook

/-- A front goes with the entry it names. -/
theorem pop_erase (h : Tracks stamp t ((s, k) :: rest) clock) :
    Tracks stamp (t.erase k) rest clock := by
  apply (h.erase k).pop_stale
  intro v hlook
  rw [AList.lookup_erase] at hlook
  exact absurd hlook nofun

/-- The entry a current front names is the least recently touched of the table. -/
theorem front_oldest (h : Tracks stamp t ((s, k) :: rest) clock) {k' : κ} {v' : ν}
    (hne : k' ≠ k) (hlook : t.lookup k' = some v') : s < stamp v' := by
  rcases List.mem_cons.1 (h.held k' v' hlook) with heq | hmem
  · exact absurd (Prod.ext_iff.1 heq).2 hne
  · exact (List.pairwise_cons.1 h.sorted).1 _ hmem

/-- Only an empty table is tracked by an empty queue. -/
theorem empty_of_nil (h : Tracks stamp t [] clock) : t = ∅ := by
  apply eq_empty_of_lookup
  intro k
  rcases hlook : t.lookup k with - | v
  · rfl
  · exact absurd (h.held k v hlook) (List.not_mem_nil)

/-- Sweeping the stale touches out keeps the current ones. -/
theorem sweep (h : Tracks stamp t order clock) :
    Tracks stamp t (order.filter (current stamp t)) clock where
  sorted := h.sorted.filter _
  past := fun x hx => h.past x (List.mem_of_mem_filter hx)
  held := by
    intro k v hlook
    rw [List.mem_filter]
    exact ⟨h.held k v hlook, current_iff.2 ⟨v, hlook, rfl⟩⟩

/-- A swept queue is no longer than the table has entries. -/
theorem length_sweep_le (h : Tracks stamp t order clock) :
    (order.filter (current stamp t)).length ≤ t.keys.length := by
  have hsorted := (h.sorted.filter (current stamp t)).imp (fun {x y} hlt => hlt)
  -- two current touches of one key have one time
  have hnodup : ((order.filter (current stamp t)).map Prod.snd).Nodup := by
    rw [List.Nodup, List.pairwise_map]
    apply List.Pairwise.imp_of_mem _ hsorted
    rintro ⟨sx, kx⟩ ⟨sy, ky⟩ hx hy hlt heq
    obtain ⟨v, hv, hsx⟩ := current_iff.1 (List.mem_filter.1 hx).2
    obtain ⟨v', hv', hsy⟩ := current_iff.1 (List.mem_filter.1 hy).2
    have hkeys : kx = ky := heq
    subst hkeys
    obtain rfl : v = v' := Option.some.inj (hv.symm.trans hv')
    omega
  have hsub : (order.filter (current stamp t)).map Prod.snd ⊆ t.keys := by
    intro k hk
    obtain ⟨x, hx, rfl⟩ := List.mem_map.1 hk
    obtain ⟨v, hv, -⟩ := current_iff.1 (List.mem_filter.1 hx).2
    exact AList.lookup_isSome.1 (Option.isSome_of_mem hv)
  have hle := (List.subperm_of_subset hnodup hsub).length_le
  simpa using hle

end Tracks

/-! ## Evictions -/

/-- An eviction along the queue: a stale front goes alone, a current one with the entry it names.
`gone` is what left the table. -/
inductive Evicts (stamp : ν → ℕ) : (AList fun _ : κ => ν) → List (ℕ × κ) →
    (AList fun _ : κ => ν) → List (ℕ × κ) → List (κ × ν) → Prop
  | stop (t : AList fun _ : κ => ν) (order : List (ℕ × κ)) : Evicts stamp t order t order []
  | stale {t t' : AList fun _ : κ => ν} {rest order' : List (ℕ × κ)} {gone : List (κ × ν)} {s : ℕ}
      {k : κ} (hstale : ∀ v, t.lookup k = some v → stamp v ≠ s)
      (h : Evicts stamp t rest t' order' gone) : Evicts stamp t ((s, k) :: rest) t' order' gone
  | take {t t' : AList fun _ : κ => ν} {rest order' : List (ℕ × κ)} {gone : List (κ × ν)} {s : ℕ}
      {k : κ} {v : ν} (hlook : t.lookup k = some v) (hs : stamp v = s)
      (h : Evicts stamp (t.erase k) rest t' order' gone) :
      Evicts stamp t ((s, k) :: rest) t' order' ((k, v) :: gone)

namespace Evicts

variable {stamp : ν → ℕ} {t t' : AList fun _ : κ => ν} {order order' : List (ℕ × κ)} {clock : ℕ}
  {gone : List (κ × ν)}

/-- What is left was there, and what left is not. -/
theorem lookup_of_left (h : Evicts stamp t order t' order' gone) {k : κ} {v : ν}
    (hk : t'.lookup k = some v) : t.lookup k = some v ∧ ∀ g ∈ gone, g.1 ≠ k := by
  induction h with
  | stop t order => exact ⟨hk, nofun⟩
  | stale _ _ ih => exact ih hk
  | @take t t' rest order' gone s k' v' hlook hs h ih =>
    obtain ⟨hleft, hne⟩ := ih hk
    have hkey : k ≠ k' := by
      rintro rfl
      rw [AList.lookup_erase] at hleft
      exact absurd hleft nofun
    rw [AList.lookup_erase_ne hkey] at hleft
    exact ⟨hleft, List.forall_mem_cons.2 ⟨hkey.symm, hne⟩⟩

/-- What left was there. -/
theorem lookup_of_gone (h : Evicts stamp t order t' order' gone) :
    ∀ g ∈ gone, t.lookup g.1 = some g.2 := by
  induction h with
  | stop t order => exact nofun
  | stale _ _ ih => exact ih
  | @take t t' rest order' gone s k v hlook hs h ih =>
    rintro g (_ | ⟨_, hg⟩)
    · exact hlook
    · have hleft := ih g hg
      have hkey : g.1 ≠ k := by
        intro heq
        rw [heq, AList.lookup_erase] at hleft
        exact absurd hleft nofun
      rwa [AList.lookup_erase_ne hkey] at hleft

/-- What was there is left, or left. -/
theorem lookup_or_gone (h : Evicts stamp t order t' order' gone) {k : κ} {v : ν}
    (hk : t.lookup k = some v) : t'.lookup k = some v ∨ (k, v) ∈ gone := by
  induction h with
  | stop t order => exact .inl hk
  | stale _ _ ih => exact ih hk
  | @take t t' rest order' gone s k' v' hlook hs h ih =>
    by_cases hkey : k = k'
    · subst hkey
      rw [hk] at hlook
      rw [Option.some.inj hlook]
      exact .inr List.mem_cons_self
    · rcases ih (by rwa [AList.lookup_erase_ne hkey]) with hleft | hgone
      · exact .inl hleft
      · exact .inr (List.mem_cons_of_mem _ hgone)

/-- The weight of the table is what is left and what left. -/
theorem weight_eq (h : Evicts stamp t order t' order' gone) (w : ν → M) :
    weight w t = weight w t' + (gone.map fun g => w g.2).sum := by
  induction h with
  | stop t order => simp
  | stale _ _ ih => exact ih
  | @take t t' rest order' gone s k v hlook hs h ih =>
    rw [weight_erase w hlook, ih, List.map_cons, List.sum_cons, add_assoc, add_comm (w v)]

/-- The queue is only read from its front. -/
theorem suffix (h : Evicts stamp t order t' order' gone) : order' <:+ order := by
  induction h with
  | stop t order => exact List.suffix_rfl
  | stale _ _ ih => exact ih.trans (List.suffix_cons _ _)
  | take _ _ _ ih => exact ih.trans (List.suffix_cons _ _)

/-- An entry leaves along with its own touch: no other touch of the queue takes it. -/
theorem popped (h : Evicts stamp t order t' order' gone) (ht : Tracks stamp t order clock) :
    ∀ g ∈ gone, (stamp g.2, g.1) ∉ order' := by
  induction h with
  | stop t order => exact nofun
  | stale hstale _ ih => exact ih (ht.pop_stale hstale)
  | @take t t' rest order' gone s k v hlook hs h ih =>
    rintro g (_ | ⟨_, hg⟩)
    · -- the times of a queue increase, so the front's is not met again
      intro hmem
      have hlt := (List.pairwise_cons.1 ht.sorted).1 _ (h.suffix.subset hmem)
      dsimp only at hlt
      omega
    · exact ih ht.pop_erase g hg

/-- An eviction leaves no more keys. -/
theorem length_keys_le (h : Evicts stamp t order t' order' gone) :
    t'.keys.length ≤ t.keys.length := by
  have hcount := h.weight_eq fun _ => 1
  rw [← length_keys, ← length_keys] at hcount
  omega

/-- Whatever leaves was touched before anything that is left. -/
theorem oldest (h : Evicts stamp t order t' order' gone) (ht : Tracks stamp t order clock) :
    ∀ g ∈ gone, ∀ k v, t'.lookup k = some v → stamp g.2 < stamp v := by
  induction h with
  | stop t order => exact nofun
  | stale hstale _ ih => exact ih (ht.pop_stale hstale)
  | @take t t' rest order' gone s k v hlook hs h ih =>
    rintro g (_ | ⟨_, hg⟩) k' v' hk'
    · -- the entry taken is the one whose touch the front of the queue is
      obtain ⟨hleft, -⟩ := h.lookup_of_left hk'
      have hkey : k' ≠ k := by
        rintro rfl
        rw [AList.lookup_erase] at hleft
        exact absurd hleft nofun
      rw [AList.lookup_erase_ne hkey] at hleft
      rw [hs]
      exact ht.front_oldest hkey hleft
    · exact ih ht.pop_erase g hg k' v' hk'

end Evicts

end Wiry.Recency
