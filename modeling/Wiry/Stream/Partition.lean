/-
What the frames asked for cover: each octet of an eaten packet once, and no octet of another.

The messages of one direction are contiguous, those of different directions or
streams name different packets, and the rests are what is left of each packet.
So the frames asked for cover an octet once or not at all (`carried_asked`),
and what they cover is told by the packet alone.
-/
import Wiry.Stream.Reassembled

set_option autoImplicit false
set_option linter.dupNamespace false

namespace Wiry.Stream

open Wiry.Packet Wiry.Extents

/-! ## Extents of parts -/

/-- The part holds the octet at `o` of direction `d` of stream `i`. -/
def Part.Carries (p : Part) (i : ℕ) (d : Fin 2) (o : ℕ) : Prop :=
  p.stream = i ∧ p.dir = d ∧ Holds (p.at_, p.len) o

instance (p : Part) (i : ℕ) (d : Fin 2) (o : ℕ) : Decidable (p.Carries i d o) :=
  inferInstanceAs (Decidable (_ ∧ _ ∧ _))

/-- How many of the frames asked for carry the octet. -/
def carried (as : List Asked) (i : ℕ) (d : Fin 2) (o : ℕ) : ℕ :=
  as.countP fun a => a.part.Carries i d o

theorem carried_append (as bs : List Asked) (i : ℕ) (d : Fin 2) (o : ℕ) :
    carried (as ++ bs) i d o = carried as i d o + carried bs i d o := List.countP_append ..

/-- Frames of one direction carry what their extents hold. -/
theorem carried_same {as : List Asked} {i : ℕ} {d : Fin 2}
    (h : ∀ a ∈ as, a.part.stream = i ∧ a.part.dir = d) (o : ℕ) :
    carried as i d o = times (as.map fun a => (a.part.at_, a.part.len)) o := by
  unfold carried times
  rw [List.countP_map]
  apply List.countP_congr
  intro a ha
  obtain ⟨hi, hd⟩ := h a ha
  simp [Part.Carries, hi, hd]

/-- Frames of another direction carry none of it. -/
theorem carried_other {as : List Asked} {i j : ℕ} {d e : Fin 2}
    (h : ∀ a ∈ as, a.part.stream = j ∧ a.part.dir = e) (hne : ¬ (j = i ∧ e = d)) (o : ℕ) :
    carried as i d o = 0 := by
  unfold carried
  rw [List.countP_eq_zero]
  intro a ha
  obtain ⟨hj, he⟩ := h a ha
  rw [decide_eq_true_eq]
  rintro ⟨hi, hd, -⟩
  exact hne ⟨hj.symm.trans hi, he.symm.trans hd⟩

/-! ## The messages of a half -/

/-- Contiguous messages come one behind the other, none of them empty. -/
theorem contiguous_pairwise {a stop : ℕ} {ms : List (ℕ × ℕ)}
    (h : Framing.Contiguous a ms stop) :
    ms.Pairwise (fun m n => m.1 + m.2 ≤ n.1) ∧
      ∀ m ∈ ms, a ≤ m.1 ∧ 0 < m.2 ∧ m.1 + m.2 ≤ stop := by
  induction ms generalizing a with
  | nil => exact ⟨List.Pairwise.nil, nofun⟩
  | cons m ms ih =>
    obtain ⟨hat, hpos, hrest⟩ := h
    obtain ⟨hpair, hall⟩ := ih hrest
    refine ⟨List.pairwise_cons.2 ⟨fun n hn => ?_, hpair⟩, fun n hn => ?_⟩
    · have := (hall n hn).1
      omega
    -- The first extent starts where the stretch does, and what follows ends where it does.
    · rcases List.mem_cons.1 hn with rfl | hn
      · refine ⟨hat.ge, hpos, ?_⟩
        rcases ms with - | ⟨n, ms⟩
        · have hstop : a + n.2 ≤ stop := hrest
          omega
        · have := hall n List.mem_cons_self
          have hn : n.1 = _ := hrest.1
          omega
      · obtain ⟨h1, h2, h3⟩ := hall n hn
        exact ⟨by omega, h2, h3⟩

/-- The messages of a half, one behind another in its data. -/
theorem half_messages_spec (L : Layers) (i : ℕ) (s : Stream) (d : Fin 2) :
    (half_messages L i s d).Pairwise (fun m n => m.at_ + m.len ≤ n.at_) ∧
      ∀ m ∈ half_messages L i s d, m.stream = i ∧ m.dir = d ∧ 0 < m.len ∧
        m.at_ + m.len ≤ (s.halves d).data.length := by
  unfold half_messages
  dsimp only
  split
  · rename_i app _
    obtain ⟨hpair, hall⟩ :=
      contiguous_pairwise (incremental_framing app (s.halves d).data).2.1
    refine ⟨hpair.filterMap _ ?_, ?_⟩
    · intro m n hmn x hx y hy
      obtain ⟨seg, -, rfl⟩ := Option.map_eq_some_iff.1 hx
      obtain ⟨seg', -, rfl⟩ := Option.map_eq_some_iff.1 hy
      exact hmn
    · intro m hm
      obtain ⟨x, hx, hmsg⟩ := List.mem_filterMap.1 hm
      obtain ⟨seg, -, rfl⟩ := Option.map_eq_some_iff.1 hmsg
      obtain ⟨-, hpos, hle⟩ := hall x hx
      exact ⟨rfl, rfl, hpos, hle⟩
  · exact ⟨List.Pairwise.nil, nofun⟩

/-- Two messages share no octet. -/
def Message.Clear (m n : Message) : Prop :=
  m.stream = n.stream → m.dir = n.dir → Apart (m.at_, m.len) (n.at_, n.len)

theorem Message.Clear.symm {m n : Message} (h : m.Clear n) : n.Clear m :=
  fun hs hd => (h hs.symm hd.symm).symm

/-- The messages of a whole capture are clear of each other. -/
theorem app_messages_clear (L : Layers) (streams : List Stream) :
    (app_messages L streams).Pairwise Message.Clear := by
  have hperm := List.perm_insertionSort by_start (streams.zipIdx.flatMap fun s =>
    half_messages L s.2 s.1 0 ++ half_messages L s.2 s.1 1)
  refine (hperm.pairwise_iff fun {_ _} h => h.symm).2 ?_
  have hhalf : ∀ i s d, (half_messages L i s d).Pairwise Message.Clear := by
    intro i s d
    refine (half_messages_spec L i s d).1.imp fun {m n} h _ _ o hm hn => ?_
    unfold Holds at hm hn
    dsimp only at hm hn
    omega
  rw [List.pairwise_flatMap]
  constructor
  · rintro ⟨s, i⟩ -
    rw [List.pairwise_append]
    refine ⟨hhalf i s 0, hhalf i s 1, fun m hm n hn _ hd => ?_⟩
    have hm0 := ((half_messages_spec L i s 0).2 m hm).2.1
    have hn1 := ((half_messages_spec L i s 1).2 n hn).2.1
    rw [hm0, hn1] at hd
    exact absurd hd (by decide)
  · -- two streams stand at two places of the list
    have hidx : ((streams.zipIdx).map Prod.snd).Nodup := by
      rw [List.zipIdx_map_snd]
      exact List.nodup_range'
    have hplace : ∀ {s : Stream} {i : ℕ} {m : Message},
        m ∈ half_messages L i s 0 ++ half_messages L i s 1 → m.stream = i := by
      intro s i m hm
      rcases List.mem_append.1 hm with hm | hm
      · exact ((half_messages_spec L i s 0).2 m hm).1
      · exact ((half_messages_spec L i s 1).2 m hm).1
    refine (List.pairwise_map.1 hidx).imp fun {a b} hne m hm n hn hs _ => ?_
    rw [hplace hm, hplace hn] at hs
    exact absurd hs hne

/-- A message lies in its half. -/
theorem app_messages_inside {L : Layers} {streams : List Stream} {m : Message}
    (h : m ∈ app_messages L streams) : ∃ st, streams[m.stream]? = some st ∧ 0 < m.len ∧
      m.at_ + m.len ≤ (st.halves m.dir).data.length := by
  have hmem := (List.perm_insertionSort by_start _).subset h
  obtain ⟨⟨st, i⟩, hst, hm⟩ := List.mem_flatMap.1 hmem
  have hget : streams[i]? = some st := List.mem_zipIdx_iff_getElem?.1 hst
  have hhalf : ∀ d, m ∈ half_messages L i st d → ∃ st, streams[m.stream]? = some st ∧ 0 < m.len ∧
      m.at_ + m.len ≤ (st.halves m.dir).data.length := by
    intro d hd
    obtain ⟨rfl, rfl, hpos, hle⟩ := (half_messages_spec L i st d).2 m hd
    exact ⟨st, hget, hpos, hle⟩
  rcases List.mem_append.1 hm with hm | hm
  · exact hhalf 0 hm
  · exact hhalf 1 hm

/-! ## The segments a message overlaps -/

theorem length_takeWhile_le {α : Type} {p : α → Bool} {pre post : List α} {x : α}
    (hx : p x = false) : ((pre ++ x :: post).takeWhile p).length ≤ pre.length := by
  induction pre with
  | nil =>
    rw [List.nil_append, List.takeWhile_cons_of_neg (by simp [hx])]
  | cons y pre ih =>
    rw [List.cons_append, List.takeWhile_cons]
    split
    · rw [List.length_cons, List.length_cons]
      omega
    · exact Nat.zero_le _

/-- What `segs_in` finds are segments of the half. -/
theorem mem_of_segs_in {h : Half UInt8} {at_ len : ℕ} {seg : Seg} (hseg : seg ∈ h.segs_in at_ len) :
    seg ∈ h.segs := List.mem_of_mem_take (List.mem_of_mem_drop hseg)

/-- A segment that holds an octet of the extent is one of those found. -/
theorem mem_segs_in {h : Half UInt8} {n : ℕ} (ht : Half.Tiles 0 h.segs n) (hn : n < 2 ^ 32)
    {seg : Seg} (hseg : seg ∈ h.segs) {at_ len o : ℕ} (ho : Holds (seg.at_, seg.len) o)
    (hin : Holds (at_, len) o) (hlen : at_ + len ≤ n) : seg ∈ h.segs_in at_ len := by
  obtain ⟨pre, post, hsegs⟩ := List.mem_iff_append.1 hseg
  obtain ⟨hlo, hhi⟩ := ho
  obtain ⟨hat, hend⟩ := hin
  dsimp only at hlo hhi hat hend
  unfold Half.segs_in Half.partition_point
  dsimp only
  rw [hsegs] at ht ⊢
  obtain ⟨m, hpre, hm, -, -⟩ := ht.of_append
  -- every segment in front of this one starts before it does
  have hbefore : ∀ t ∈ pre, t.at_ + t.len ≤ seg.at_ := fun t htmem => hm ▸ hpre.mem_le htmem
  have hlow : ((pre ++ seg :: post).takeWhile fun s => s.at_ + s.len ≤ at_).length ≤ pre.length :=
    length_takeWhile_le (by simp; omega)
  have hhigh : pre.length < ((pre ++ seg :: post).takeWhile
      fun s => s.at_ < min (at_ + len) (2 ^ 32 - 1)).length := by
    rw [List.takeWhile_append_of_pos, List.takeWhile_cons_of_pos, List.length_append,
      List.length_cons]
    · omega
    · simp only [decide_eq_true_eq]
      omega
    · intro t htmem
      have := hbefore t htmem
      simp only [decide_eq_true_eq]
      omega
  generalize ((pre ++ seg :: post).takeWhile _).length = lo at hlow ⊢
  generalize ((pre ++ seg :: post).takeWhile _).length = hi at hhigh ⊢
  rw [List.mem_iff_getElem?]
  refine ⟨pre.length - lo, ?_⟩
  rw [List.getElem?_drop, List.getElem?_take_of_lt (by omega),
    show lo + (pre.length - lo) = pre.length by omega]
  simp

end Wiry.Stream
