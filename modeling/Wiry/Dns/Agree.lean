/-
`dns_get_str` on a name `read_name` accepts. Both follow the same pointers; they
part where their limits do, since one refuses a name beyond 64 jumps and the other
ends it, unsaid, at the twenty-first.
-/
import Wiry.Dns.Read

set_option autoImplicit false

namespace Wiry.Dns

open Packet (Bytes slice)

/-- The labels a presented name unescapes to. -/
def name_labels (name : Bytes) : List Bytes :=
  if name = [DOT] then [] else (split_labels name).dropLast

/-- No label of a name at an offset is empty. -/
theorem NameAt.labels_ne {m : Bytes} {p e : ℕ} {segs : List (List Bytes)} (h : NameAt m p segs e) :
    ∀ ls ∈ segs, ∀ l ∈ ls, l ≠ [] := by
  induction h with
  | root here => simp
  | @label p e n ls segs here pos short room rest ih =>
    refine List.forall_mem_cons.2 ⟨List.forall_mem_cons.2 ⟨?_, ih ls List.mem_cons_self⟩, fun k hk => ih k (List.mem_cons_of_mem _ hk)⟩
    have hn : n.toNat ≠ 0 := fun h0 => pos (UInt8.toNat_inj.1 h0)
    apply List.ne_nil_of_length_pos
    rw [Packet.length_slice room]
    omega
  | pointer here marked next back rest ih =>
    exact List.forall_mem_cons.2 ⟨by simp, ih⟩

/-- A presented name unescapes to its labels. -/
theorem name_labels_present {ls : List Bytes} (h : ∀ l ∈ ls, l ≠ []) :
    name_labels (if present ls = [] then [DOT] else present ls) = ls := by
  obtain rfl | ⟨ks, l, rfl⟩ := List.eq_nil_or_concat' ls
  · rfl
  · obtain ⟨hne, hdot, _⟩ := present_spelt ks (h l (by simp))
    rw [if_neg hne, name_labels, if_neg hdot, split_labels_present, List.dropLast_concat]

/-! ## One walk beside the other -/

/-- `dns_get_str` at offset `p` of `m`: before the first jump it reads the octets from
`b` on, behind it the message itself. -/
structure Reading (m : Bytes) (b p : ℕ) (w : Cursor) : Prop where
  stream : w.s = m.drop b
  place : b + w.pointer = p
  after : w.after_pointer.isSome = w.bytes_left.isSome
  whole : w.bytes_left.isSome → b = 0

/-- No offset jumped to before has fewer pointers to go than are left now. -/
def Descending (m : Bytes) (seen : List ℕ) (n : ℕ) : Prop :=
  ∀ t ∈ seen, ∀ segs e, NameAt m t segs e → n ≤ segs.length

/-- What `dns_get_str` leaves behind the name. -/
def Cursor.leftover (w : Cursor) : Bytes :=
  w.bytes_left.getD (w.s.drop (w.after_pointer.getD w.pointer))

namespace Reading

variable {m : Bytes} {b p : ℕ} {w : Cursor}

theorem octet (h : Reading m b p w) (i : ℕ) : w.s[w.pointer + i]? = m[p + i]? := by
  rw [h.stream, List.getElem?_drop, ← h.place, Nat.add_assoc]

theorem here (h : Reading m b p w) : w.s[w.pointer]? = m[p]? := h.octet 0

theorem label_octets (h : Reading m b p w) (n : ℕ) :
    slice w.s (w.pointer + 1) (w.pointer + 1 + n) = slice m (p + 1) (p + 1 + n) := by
  have hstop : b + (w.pointer + 1 + n) = p + 1 + n := by rw [← h.place]; omega
  have hstart : b + (w.pointer + 1) = p + 1 := by rw [← h.place]; omega
  rw [h.stream, slice, List.take_drop, List.drop_drop, hstop, hstart, slice]

theorem left_none (h : Reading m b p w) (hleft : w.bytes_left = none) : w.after_pointer = none := by
  have hafter := h.after
  rw [hleft, Option.isSome_none] at hafter
  exact Option.isSome_eq_false_iff.1 hafter |> Option.isNone_iff_eq_none.1

end Reading

/-- `dns_get_str` at a pointer it has not followed before. -/
theorem get_str_loop_pointer {full : Bytes} {w : Cursor} {hi lo : UInt8}
    (here : w.s[w.pointer]? = some hi) (marked : hi &&& 0xC0 = 0xC0)
    (next : w.s[w.pointer + 1]? = some lo) (hfull : full ≠ [])
    (hnew : (hi &&& 0x3F).toNat * 256 + lo.toNat ∉ w.processed_pointers) :
    get_str_loop full w =
      if 20 ≤ w.processed_pointers.length then
        .ok { w with
          pointer := (hi &&& 0x3F).toNat * 256 + lo.toNat
          after_pointer := some (w.after_pointer.getD (w.pointer + 2)) }
      else
        get_str_loop full
          { s := if w.bytes_left.isSome then w.s else full
            pointer := (hi &&& 0x3F).toNat * 256 + lo.toNat
            name := w.name
            after_pointer := some (w.after_pointer.getD (w.pointer + 2))
            processed_pointers := w.processed_pointers ++ [(hi &&& 0x3F).toNat * 256 + lo.toNat]
            bytes_left := some (w.bytes_left.getD (w.s.drop (w.after_pointer.getD (w.pointer + 2)))) } := by
  rw [get_str_loop.eq_def]
  split
  · next hn => exact absurd (here.symm.trans hn) (Option.some_ne_none _)
  · next cur hc =>
    obtain rfl := Option.some.inj (here.symm.trans hc)
    rw [if_pos (by rw [marked]; decide)]
    simp only [next, if_neg hfull, if_neg hnew]

namespace Reading

variable {m : Bytes} {b p : ℕ} {w : Cursor}

/-- Behind the first pointer what is left is fixed; before it, it is what stands behind `p`. -/
theorem left_behind (h : Reading m b p w) (k : ℕ) :
    w.bytes_left.getD (w.s.drop (w.after_pointer.getD (w.pointer + k)))
      = w.bytes_left.getD (m.drop (p + k)) := by
  cases hleft : w.bytes_left with
  | some left => rfl
  | none =>
    rw [h.left_none hleft, Option.getD_none, Option.getD_none, Option.getD_none, h.stream,
      List.drop_drop, ← Nat.add_assoc, h.place]

theorem label (h : Reading m b p w) (n : ℕ) (name : Bytes) :
    Reading m b (p + 1 + n) { w with name, pointer := w.pointer + 1 + n } where
  stream := h.stream
  place := by
    rw [← h.place]
    dsimp only
    omega
  after := h.after
  whole := h.whole

/-- After a jump the walk is over the message itself. -/
theorem jump (h : Reading m b p w) (target after : ℕ) (left : Bytes) (seen : List ℕ) :
    Reading m 0 target
      { s := if w.bytes_left.isSome then w.s else m
        pointer := target
        name := w.name
        after_pointer := some after
        processed_pointers := seen
        bytes_left := some left } where
  stream := by
    dsimp only
    split
    · next hleft => rw [h.stream, h.whole hleft]
    · exact List.drop_zero.symm
  place := Nat.zero_add _
  after := rfl
  whole := fun _ => rfl

end Reading

/-- One jump further the pointers to go are fewer, from the new offset as from the old ones. -/
theorem Descending.jump {m : Bytes} {seen : List ℕ} {t e : ℕ} {segs : List (List Bytes)}
    (h : Descending m seen (segs.length + 1)) (ht : NameAt m t segs e) :
    t ∉ seen ∧ Descending m (seen ++ [t]) segs.length := by
  constructor
  · intro hmem
    have hle := h t hmem segs e ht
    omega
  · intro t' hmem segs' e' ht'
    rcases List.mem_append.1 hmem with hold | hnew
    · exact le_trans (Nat.le_succ _) (h t' hold segs' e' ht')
    · rw [List.mem_singleton.1 hnew] at ht'
      rw [(ht.unique ht').1]

/-- `dns_get_str` over what is left of a name: it reads the labels up to its own limit of
jumps, and leaves what stands behind the name. -/
theorem get_str_loop_name {m : Bytes} {p e : ℕ} {segs : List (List Bytes)} (h : NameAt m p segs e)
    {b : ℕ} {w : Cursor} (hw : Reading m b p w) (hfew : w.processed_pointers.length ≤ 20)
    (hdesc : Descending m w.processed_pointers segs.length) :
    ∃ w', get_str_loop m w = .ok w'
      ∧ w'.name = w.name ++ present (labels_of (segs.take (21 - w.processed_pointers.length)))
      ∧ w'.leftover = w.bytes_left.getD (m.drop e) := by
  induction h generalizing b w with
  | @root p here =>
    refine ⟨_, get_str_loop_root (hw.here.trans here) m, ?_, ?_⟩
    · obtain ⟨k, hk⟩ : ∃ k, 21 - w.processed_pointers.length = k + 1 :=
        ⟨20 - w.processed_pointers.length, by omega⟩
      rw [hk]
      simp [labels_of]
    · exact hw.left_behind 1
  | @label p e n ls segs here pos short room rest ih =>
    obtain ⟨w', hrun, hname, hleft⟩ := ih (hw.label n.toNat _) hfew hdesc
    refine ⟨w', (get_str_loop_label (hw.here.trans here) pos short m).trans hrun, ?_, hleft⟩
    obtain ⟨k, hk⟩ : ∃ k, 21 - w.processed_pointers.length = k + 1 :=
      ⟨20 - w.processed_pointers.length, by omega⟩
    dsimp only at hname
    rw [hk] at hname ⊢
    rw [hname, hw.label_octets]
    simp [labels_of, present_cons]
  | @pointer p e hi lo segs here marked next back rest ih =>
    obtain ⟨hnew, hdesc'⟩ := Descending.jump (by simpa using hdesc) rest
    have hfull : m ≠ [] := by
      rintro rfl
      cases here
    have hstep := get_str_loop_pointer (hw.here.trans here) marked ((hw.octet 1).trans next) hfull hnew
    by_cases hlimit : 20 ≤ w.processed_pointers.length
    · -- the limit of `dns_get_str`: the name ends with the labels read so far
      rw [if_pos hlimit] at hstep
      refine ⟨_, hstep, ?_, hw.left_behind 2⟩
      have hlast : 21 - w.processed_pointers.length = 1 := by omega
      rw [hlast]
      simp [labels_of]
    · rw [if_neg hlimit] at hstep
      obtain ⟨w', hrun, hname, hleft⟩ := ih (hw.jump _ _ _ _)
        (by rw [List.length_append, List.length_singleton]; omega) hdesc'
      refine ⟨w', hstep.trans hrun, ?_, hleft.trans (hw.left_behind 2)⟩
      have hlimits : 21 - w.processed_pointers.length
          = (21 - (w.processed_pointers.length + 1)) + 1 := by omega
      rw [hname, hlimits]
      simp [labels_of]

/-- Labels `dns_get_str` takes from a name: those before its twenty-first pointer. -/
def labels_kept (segs : List (List Bytes)) : List Bytes := labels_of (segs.take 21)

theorem dns_get_str_name {m : Bytes} {p e : ℕ} {segs : List (List Bytes)} (h : NameAt m p segs e) :
    dns_get_str (m.drop p) m
      = .ok (if present (labels_kept segs) = [] then [DOT] else present (labels_kept segs), m.drop e) := by
  have hstart : Reading m p p ⟨m.drop p, 0, [], none, [], none⟩ := ⟨rfl, rfl, rfl, by simp⟩
  obtain ⟨w', hrun, hname, hleft⟩ :=
    get_str_loop_name h hstart (Nat.zero_le _) fun t ht => absurd ht List.not_mem_nil
  rw [dns_get_str, hrun]
  dsimp only
  rw [← Cursor.leftover, hleft, hname]
  rfl

/-- A name `read_name` accepts is the one `dns_get_str` reads there, as far as its twentieth
pointer leads, and it leaves the octets `read_name` stops at. -/
theorem name_readers_agree {m : Bytes} {p : ℕ} {ls : List Bytes} {e : ℕ}
    (h : read_labels m p = some (ls, e)) :
    ∃ segs name, NameAt m p segs e ∧ ls = labels_of segs
      ∧ dns_get_str (m.drop p) m = .ok (name, m.drop e)
      ∧ name_labels name = labels_kept segs ∧ (segs.length ≤ 21 → name_labels name = ls) := by
  obtain ⟨segs, hat, rfl⟩ := read_labels_sound h
  have hne : ∀ l ∈ labels_kept segs, l ≠ [] := fun l hl => by
    obtain ⟨ks, hks, hl⟩ := List.mem_flatten.1 hl
    exact hat.labels_ne ks (List.mem_of_mem_take hks) l hl
  have hlabels := name_labels_present hne
  refine ⟨segs, _, hat, rfl, dns_get_str_name hat, hlabels, fun hfew => ?_⟩
  rw [hlabels, labels_kept, List.take_of_length_le hfew]

/-! ## A long chain of pointers -/

/-- Where the last of `n` chained pointers stands; the label they end at where there is none. -/
def chain_at (n : ℕ) : ℕ := if n = 0 then 0 else 2 * n + 1

/-- The name `a`, and behind it `n` pointers, each to the one before it. -/
def chained : ℕ → Bytes
  | 0 => [1, 0x61, 0]
  | n + 1 => chained n ++ [0xC0, UInt8.ofNat (chain_at n)]

/-- The length of the chain. -/
theorem length_chained (n : ℕ) : (chained n).length = 2 * n + 3 := by
  induction n with
  | zero => rfl
  | succ n ih =>
    rw [chained, List.length_append, ih, List.length_cons, List.length_singleton]
    omega

/-- The chain of pointers is a name for as many jumps as the reader allows. -/
theorem chained_name {n : ℕ} (hn : n ≤ 100) :
    NameAt (chained n) (chain_at n) (List.replicate n [] ++ [[[0x61]]]) (2 * n + 3) := by
  induction n with
  | zero => exact .label (n := 1) rfl (by decide) (by decide) (by decide) (.root rfl)
  | succ n ih =>
    -- every pointer of the chain points to the one before it, the first to the label
    have hback : chain_at n < 2 * n + 3 := by
      unfold chain_at
      split <;> omega
    have hlo : (UInt8.ofNat (chain_at n)).toNat = chain_at n := by
      rw [UInt8.toNat_ofNat']
      omega
    have htarget : ((0xC0 : UInt8) &&& 0x3F).toNat * 256 + (UInt8.ofNat (chain_at n)).toNat = chain_at n := by
      rw [hlo]
      exact Nat.zero_add _
    have hrest := (ih (by omega)).append [0xC0, UInt8.ofNat (chain_at n)]
    have hplace : chain_at (n + 1) = (chained n).length := by
      rw [length_chained, chain_at, if_neg (by omega)]
      omega
    -- the pointer put behind the chain so far is a name there
    rw [hplace]
    have hhi : (chained (n + 1))[(chained n).length]? = some 0xC0 := by
      rw [chained, List.getElem?_append_right le_rfl, Nat.sub_self]
      rfl
    have hnext : (chained (n + 1))[(chained n).length + 1]? = some (UInt8.ofNat (chain_at n)) := by
      rw [chained, List.getElem?_append_right (Nat.le_add_right _ 1), Nat.add_sub_cancel_left]
      rfl
    have hjump := NameAt.pointer hhi (by decide) hnext
      (by rw [htarget, length_chained]; exact hback) (by rw [htarget]; exact hrest)
    rw [length_chained] at hjump ⊢
    exact hjump

theorem chained_labels (n : ℕ) : labels_of (List.replicate n [] ++ [[[0x61]]]) = [[0x61]] := by
  induction n with
  | zero => rfl
  | succ n ih => rw [List.replicate_succ, List.cons_append, labels_of, List.flatten_cons]; exact ih

/-- `read_name` follows a chain of twenty-one pointers. -/
theorem read_chained : read_labels (chained 21) (chain_at 21) = some ([[0x61]], 45) := by
  have hname := chained_name (n := 21) (by omega)
  rw [← chained_labels 21]
  exact read_labels_complete hname (by decide) (by rw [chained_labels]; decide)

theorem name_readers_agree_chained :
    ∃ segs name, NameAt (chained 21) (chain_at 21) segs 45 ∧ [[0x61]] = labels_of segs
      ∧ dns_get_str ((chained 21).drop (chain_at 21)) (chained 21) = .ok (name, (chained 21).drop 45)
      ∧ name_labels name = labels_kept segs ∧ (segs.length ≤ 21 → name_labels name = [[0x61]]) :=
  name_readers_agree read_chained

/-- Of the name at the end of twenty-one pointers `dns_get_str` reads no label. -/
theorem twenty_one_pointers_unread :
    read_labels (chained 21) (chain_at 21) = some ([[0x61]], 45)
      ∧ ∀ name, dns_get_str ((chained 21).drop (chain_at 21)) (chained 21) = .ok (name, (chained 21).drop 45) →
        name_labels name ≠ [[0x61]] := by
  refine ⟨read_chained, fun name hname => ?_⟩
  rw [dns_get_str_name (chained_name (by omega)), Except.ok.injEq, Prod.mk.injEq] at hname
  rw [← hname.1]
  decide

end Wiry.Dns
