/-
Ordered maps as strictly sorted association lists.

An ordered map is read in four ways here: by its least key, by the greatest key
at or below a bound, by the least key at or above one, and entry by entry. Each
is a filter of one sorted list, so an insertion or a removal is described by
what it does to that list, and a property of all entries is a property of list
membership. The order of the keys is a field: no map out of order can be built,
and no later proof has to say that the entries it walks are sorted.
-/
import Mathlib

set_option autoImplicit false

/-- A finite map with its entries in strictly increasing key order. -/
@[ext] structure SortedMap (κ ν : Type*) [LinearOrder κ] where
  entries : List (κ × ν)
  sorted : entries.Pairwise fun x y => x.1 < y.1

namespace SortedMap

variable {κ ν : Type*} [LinearOrder κ]

/-! ## The operations -/

/-- The map with no entries. -/
def empty : SortedMap κ ν := ⟨[], List.Pairwise.nil⟩

instance : Inhabited (SortedMap κ ν) := ⟨empty⟩

/-- The number of entries. -/
def length (m : SortedMap κ ν) : ℕ := m.entries.length

/-- The entry with the least key. -/
def first (m : SortedMap κ ν) : Option (κ × ν) := m.entries.head?

/-- The entry with the greatest key not above `k`. -/
def floor (m : SortedMap κ ν) (k : κ) : Option (κ × ν) :=
  (m.entries.filter fun x => x.1 ≤ k).getLast?

/-- The entry with the least key not below `k`. -/
def ceil (m : SortedMap κ ν) (k : κ) : Option (κ × ν) :=
  (m.entries.filter fun x => k ≤ x.1).head?

/-- Binds `k` to `v`, replacing what `k` was bound to. -/
def insert (m : SortedMap κ ν) (k : κ) (v : ν) : SortedMap κ ν where
  entries := m.entries.filter (fun x => x.1 < k) ++ (k, v) :: m.entries.filter (fun x => k < x.1)
  sorted := by
    rw [List.pairwise_append]
    refine ⟨m.sorted.filter _, List.pairwise_cons.2 ⟨?_, m.sorted.filter _⟩, ?_⟩
    · intro x hx
      simpa using (List.mem_filter.1 hx).2
    · intro x hx y hy
      have hxk : x.1 < k := by simpa using (List.mem_filter.1 hx).2
      rcases List.mem_cons.1 hy with rfl | hy
      · exact hxk
      · exact hxk.trans (by simpa using (List.mem_filter.1 hy).2)

/-- Unbinds `k`. -/
def remove (m : SortedMap κ ν) (k : κ) : SortedMap κ ν where
  entries := m.entries.filter fun x => x.1 ≠ k
  sorted := m.sorted.filter _

/-! ## Reading a map -/

@[simp] theorem entries_empty : (empty : SortedMap κ ν).entries = [] := rfl

@[simp] theorem length_empty : (empty : SortedMap κ ν).length = 0 := rfl

@[simp] theorem first_empty : (empty : SortedMap κ ν).first = none := rfl

theorem first_eq_none {m : SortedMap κ ν} : m.first = none ↔ m.entries = [] := by
  simp [first]

/-- The first entry is the head of the list, and the rest lie strictly above it. -/
theorem first_eq_some {m : SortedMap κ ν} {x : κ × ν} :
    m.first = some x ↔ ∃ rest, m.entries = x :: rest := by
  unfold first
  cases m.entries <;> simp [eq_comm]

theorem lt_of_entries_cons {m : SortedMap κ ν} {x : κ × ν} {rest : List (κ × ν)}
    (h : m.entries = x :: rest) {y : κ × ν} (hy : y ∈ rest) : x.1 < y.1 := by
  have hs := m.sorted
  rw [h] at hs
  exact List.rel_of_pairwise_cons hs hy

/-- Every entry's key is at or above the first one's. -/
theorem first_le {m : SortedMap κ ν} {x y : κ × ν} (hx : m.first = some x)
    (hy : y ∈ m.entries) : x.1 ≤ y.1 := by
  obtain ⟨rest, h⟩ := first_eq_some.1 hx
  rw [h] at hy
  rcases List.mem_cons.1 hy with rfl | hy
  · exact le_rfl
  · exact (lt_of_entries_cons h hy).le

/-- The first entry is an entry. -/
theorem mem_of_first {m : SortedMap κ ν} {x : κ × ν} (hx : m.first = some x) :
    x ∈ m.entries := by
  obtain ⟨rest, h⟩ := first_eq_some.1 hx
  rw [h]
  exact List.mem_cons_self

/-- An entry is the floor of a bound exactly when no entry lies between them. -/
theorem floor_eq_some {m : SortedMap κ ν} {k : κ} {x : κ × ν} (h : m.floor k = some x) :
    x ∈ m.entries ∧ x.1 ≤ k ∧ ∀ y ∈ m.entries, y.1 ≤ k → y.1 ≤ x.1 := by
  unfold floor at h
  obtain ⟨pre, hpre⟩ := List.getLast?_eq_some_iff.1 h
  have hmem : x ∈ m.entries.filter fun y => y.1 ≤ k := by
    rw [hpre]
    exact List.mem_append_right _ (List.mem_singleton_self x)
  refine ⟨(List.mem_filter.1 hmem).1, by simpa using (List.mem_filter.1 hmem).2, ?_⟩
  intro y hy hyk
  have hy' : y ∈ pre ++ [x] := by
    rw [← hpre]
    exact List.mem_filter.2 ⟨hy, by simpa using hyk⟩
  have hs : (pre ++ [x]).Pairwise fun a b => a.1 < b.1 := by
    rw [← hpre]
    exact m.sorted.filter _
  rcases List.mem_append.1 hy' with hy' | hy'
  · exact ((List.pairwise_append.1 hs).2.2 y hy' x (List.mem_singleton_self x)).le
  · rw [List.mem_singleton.1 hy']

/-- No key at or below the bound. -/
theorem floor_eq_none {m : SortedMap κ ν} {k : κ} (h : m.floor k = none) :
    ∀ y ∈ m.entries, k < y.1 := by
  unfold floor at h
  rw [List.getLast?_eq_none_iff, List.filter_eq_nil_iff] at h
  intro y hy
  simpa using h y hy

/-- The ceiling of a bound is at or above it, and no entry lies between. -/
theorem ceil_eq_some {m : SortedMap κ ν} {k : κ} {x : κ × ν} (h : m.ceil k = some x) :
    x ∈ m.entries ∧ k ≤ x.1 ∧ ∀ y ∈ m.entries, k ≤ y.1 → x.1 ≤ y.1 := by
  unfold ceil at h
  obtain ⟨rest, hrest⟩ := List.head?_eq_some_iff.1 h
  have hmem : x ∈ m.entries.filter fun y => k ≤ y.1 := by
    rw [hrest]
    exact List.mem_cons_self
  refine ⟨(List.mem_filter.1 hmem).1, by simpa using (List.mem_filter.1 hmem).2, ?_⟩
  intro y hy hky
  have hy' : y ∈ x :: rest := by
    rw [← hrest]
    exact List.mem_filter.2 ⟨hy, by simpa using hky⟩
  have hs : (x :: rest).Pairwise fun a b => a.1 < b.1 := by
    rw [← hrest]
    exact m.sorted.filter _
  rcases List.mem_cons.1 hy' with rfl | hy'
  · exact le_rfl
  · exact (List.rel_of_pairwise_cons hs hy').le

/-- No key at or above it. -/
theorem ceil_eq_none {m : SortedMap κ ν} {k : κ} (h : m.ceil k = none) :
    ∀ y ∈ m.entries, y.1 < k := by
  unfold ceil at h
  rw [List.head?_eq_none_iff, List.filter_eq_nil_iff] at h
  intro y hy
  simpa using h y hy

/-! ## What an update does to the entries -/

/-- The entries after an insertion: the new one, and the old ones under other keys. -/
theorem mem_insert {m : SortedMap κ ν} {k : κ} {v : ν} {y : κ × ν} :
    y ∈ (m.insert k v).entries ↔ y = (k, v) ∨ (y ∈ m.entries ∧ y.1 ≠ k) := by
  simp only [insert, List.mem_append, List.mem_cons, List.mem_filter, decide_eq_true_eq]
  constructor
  · rintro (⟨h, hlt⟩ | rfl | ⟨h, hlt⟩)
    · exact Or.inr ⟨h, hlt.ne⟩
    · exact Or.inl rfl
    · exact Or.inr ⟨h, hlt.ne'⟩
  · rintro (rfl | ⟨h, hne⟩)
    · exact Or.inr (Or.inl rfl)
    · rcases lt_or_gt_of_ne hne with hlt | hgt
      · exact Or.inl ⟨h, hlt⟩
      · exact Or.inr (Or.inr ⟨h, hgt⟩)

/-- Inserting under a key the map does not bind splits the list at that key. -/
theorem insert_perm {m : SortedMap κ ν} {k : κ} {v : ν} (hk : ∀ y ∈ m.entries, y.1 ≠ k) :
    (m.insert k v).entries.Perm ((k, v) :: m.entries) := by
  have hgt : m.entries.filter (fun x => k < x.1) = m.entries.filter fun x => !decide (x.1 < k) := by
    refine List.filter_congr fun x hx => ?_
    rcases lt_or_gt_of_ne (hk x hx) with h | h <;> simp [h, h.not_gt]
  have hins : (m.insert k v).entries = m.entries.filter (fun x => x.1 < k) ++
      (k, v) :: m.entries.filter (fun x => !decide (x.1 < k)) := by
    rw [← hgt]
    rfl
  rw [hins]
  exact List.perm_middle.trans
    ((List.filter_append_perm (fun x => decide (x.1 < k)) m.entries).cons _)

theorem length_insert {m : SortedMap κ ν} {k : κ} {v : ν} (hk : ∀ y ∈ m.entries, y.1 ≠ k) :
    (m.insert k v).length = m.length + 1 := by
  unfold length
  rw [(insert_perm hk).length_eq, List.length_cons]

/-- Removing the first key drops the head of the list. -/
theorem entries_remove_first {m : SortedMap κ ν} {x : κ × ν} {rest : List (κ × ν)}
    (h : m.entries = x :: rest) : (m.remove x.1).entries = rest := by
  unfold remove
  simp only [h, ne_eq, List.filter_cons, not_true_eq_false, decide_false, Bool.false_eq_true,
    if_false]
  refine List.filter_eq_self.2 fun y hy => ?_
  simpa using (lt_of_entries_cons h hy).ne'

theorem length_remove_first {m : SortedMap κ ν} {x : κ × ν} (h : m.first = some x) :
    (m.remove x.1).length + 1 = m.length := by
  obtain ⟨rest, hrest⟩ := first_eq_some.1 h
  unfold length
  rw [entries_remove_first hrest, hrest, List.length_cons]

/-- A removal never adds an entry. -/
theorem mem_of_mem_remove {m : SortedMap κ ν} {k : κ} {y : κ × ν}
    (hy : y ∈ (m.remove k).entries) : y ∈ m.entries :=
  (List.mem_filter.1 hy).1

/-! ## Relabelling

A strictly monotone map of the keys keeps the order, so it commutes with every
operation; the values ride along. -/

section Map

variable {κ' μ : Type*} [LinearOrder κ'] (g : κ → κ') (hg : StrictMono g) (f : ν → μ)

/-- The map with every key sent through `g` and every value through `f`. -/
def map (m : SortedMap κ ν) : SortedMap κ' μ where
  entries := m.entries.map fun x => (g x.1, f x.2)
  sorted := List.pairwise_map.2 (m.sorted.imp fun h => hg h)

@[simp] theorem entries_map (m : SortedMap κ ν) :
    (m.map g hg f).entries = m.entries.map fun x => (g x.1, f x.2) := rfl

@[simp] theorem map_empty : (empty : SortedMap κ ν).map g hg f = empty := rfl

@[simp] theorem length_map (m : SortedMap κ ν) : (m.map g hg f).length = m.length := by
  simp [length]

theorem first_map (m : SortedMap κ ν) :
    (m.map g hg f).first = m.first.map fun x => (g x.1, f x.2) := by
  simp [first]

theorem floor_map (m : SortedMap κ ν) (k : κ) :
    (m.map g hg f).floor (g k) = (m.floor k).map fun x => (g x.1, f x.2) := by
  simp [floor, List.filter_map, List.getLast?_map, Function.comp_def, hg.le_iff_le]

theorem ceil_map (m : SortedMap κ ν) (k : κ) :
    (m.map g hg f).ceil (g k) = (m.ceil k).map fun x => (g x.1, f x.2) := by
  simp [ceil, List.filter_map, Function.comp_def, hg.le_iff_le]

theorem insert_map (m : SortedMap κ ν) (k : κ) (v : ν) :
    (m.map g hg f).insert (g k) (f v) = (m.insert k v).map g hg f := by
  ext1
  simp [insert, List.filter_map, Function.comp_def, hg.lt_iff_lt]

theorem remove_map (m : SortedMap κ ν) (k : κ) :
    (m.map g hg f).remove (g k) = (m.remove k).map g hg f := by
  ext1
  simp [remove, List.filter_map, Function.comp_def, hg.injective.eq_iff]

end Map

end SortedMap
