/-
`spans_of` of `crates/wiry-core/src/packet.rs` as a packet is respanned after a write: the layers are read
again over the new octets, their declared lengths bounding nothing and their classes not resolved.

A layer stays what it was when, asked again over those octets, the layer before it still names it and its
header comes out as long as before. One turn of the walk says so (`again`); the walk is its turns, one
behind the other (`walk_keeps_iff`).

When that is cannot be told of every class: `Raw` owns whatever is there, and a port is asked with the
payload in hand. It can be told of the classes that read their own header only (`OwnHeader`, `OwnNext`).
A stack of these is read again whatever is put behind the last of them (`walk_keeps_own`), and the link
layers, IP and the transports are such classes.
-/
import Wiry.Packet.Edit

set_option autoImplicit false

namespace Wiry.Packet

/-! ## One turn of an unbounded walk -/

/-- What a layer keeps of its span when what follows it changes. -/
def LayerSpan.place (s : LayerSpan) : ProtoId × ℕ × ℕ := (s.proto, s.off, s.hlen)

/-- The layer a header names, for the walk to go on with. -/
def Next.named : Next → Option ProtoId
  | .Proto p => some p
  | .Raw => some .Raw
  | .End => none

section Turn

variable (T : Table) (buf : Bytes)

/-- The header of `proto` at `off` under `parent`, with everything behind it in view. -/
def behind (parent : Option ProtoId) (proto : ProtoId) (off : ℕ) : Bytes :=
  slice buf (off + parent.elim 0 fun p => T.framing p proto) buf.length

/-- The layer read at `off` as `proto`: `Raw` where less is left than its shortest header. -/
def turn_at (parent : Option ProtoId) (proto : ProtoId) (off : ℕ) : Option (ProtoId × ℕ × ℕ) :=
  let d := T.desc proto
  let room := buf.length - off
  let pre := parent.elim 0 fun p => T.framing p proto
  if room < d.min_len + pre then if room > 0 then some (.Raw, off, room) else none
  else
    some (proto, off, min (pre + max (d.header_len (behind T buf parent proto off)) d.min_len) room)

/-- The layer read behind `s`, itself read under `parent`. -/
def turn_behind (parent : Option ProtoId) (s : ProtoId × ℕ × ℕ) : Option (ProtoId × ℕ × ℕ) :=
  if s.2.1 + s.2.2 < buf.length then
    (next_of T s.1 (behind T buf parent s.1 s.2.1)).named.bind fun p =>
      turn_at T buf (some s.1) p (s.2.1 + s.2.2)
  else none

/-- What layer `j` is read under: the layer before it, `parent` for the first. -/
def parent_at (parent : Option ProtoId) (spans : List (ProtoId × ℕ × ℕ)) : ℕ → Option ProtoId
  | 0 => parent
  | j + 1 => spans[j]?.map Prod.fst

/-- Layer `j` as `n` turns of the walk from `proto` read it, the layers before it being those of
`spans`. -/
def again (n : ℕ) (parent : Option ProtoId) (proto : ProtoId) (off : ℕ)
    (spans : List (ProtoId × ℕ × ℕ)) (j : ℕ) : Option (ProtoId × ℕ × ℕ) :=
  if j < n then
    match j with
    | 0 => turn_at T buf parent proto off
    | k + 1 => spans[k]?.bind (turn_behind T buf (parent_at parent spans k))
  else none

/-- A layer in front shifts the turns behind it by one. -/
theorem again_cons (n : ℕ) (parent : Option ProtoId) (proto : ProtoId) (off : ℕ)
    (s : ProtoId × ℕ × ℕ) (spans : List (ProtoId × ℕ × ℕ)) (p : ProtoId) (j : ℕ)
    (hlt : s.2.1 + s.2.2 < buf.length)
    (hnext : (next_of T s.1 (behind T buf parent s.1 s.2.1)).named = some p) :
    again T buf (n + 1) parent proto off (s :: spans) (j + 1) =
      again T buf n (some s.1) p (s.2.1 + s.2.2) spans j := by
  unfold again
  by_cases hj : j < n
  · rw [if_pos hj, if_pos (Nat.succ_lt_succ hj)]
    cases j with
    | zero =>
      show turn_behind T buf parent s = _
      unfold turn_behind
      rw [if_pos hlt, hnext]
      rfl
    | succ k => cases k <;> rfl
  · rw [if_neg hj, if_neg (fun h => hj (Nat.lt_of_succ_lt_succ h))]

/-- No turn follows one that left nothing to read, or named nothing. -/
theorem again_last (n : ℕ) (parent : Option ProtoId) (proto : ProtoId) (off : ℕ)
    (s : ProtoId × ℕ × ℕ) (j : ℕ) (hlast : turn_behind T buf parent s = none) :
    again T buf n parent proto off [s] (j + 1) = none := by
  unfold again
  split
  · cases j with
    | zero => exact hlast
    | succ k => rfl
  · rfl

theorem tightened_unbounded (d : ProtoDesc) (hdr : Bytes) (pre off hlen end_ : ℕ) :
    tightened false d hdr pre off hlen end_ = end_ := by
  unfold tightened
  cases d.content_len with
  | none => rfl
  | some f => exact if_neg fun h => Bool.false_ne_true h.1

/-- One turn of an unbounded walk, and the turns behind it. -/
theorem walk_unbounded_succ (n off : ℕ) (proto : ProtoId) (parent : Option ProtoId) :
    (walk T buf false (n + 1) off buf.length proto parent).1 = leftover off buf.length ∧
        turn_at T buf parent proto off = (leftover off buf.length).head?.map LayerSpan.place ∨
      ∃ s : LayerSpan, s.off = off ∧ turn_at T buf parent proto off = some s.place ∧
        (walk T buf false (n + 1) off buf.length proto parent).1 = s ::
          (if off + s.hlen < buf.length then
            (next_of T s.proto (behind T buf parent s.proto off)).named.elim [] fun p =>
              (walk T buf false n (off + s.hlen) buf.length p (some s.proto)).1
          else []) := by
  -- nothing is claimed away: the class is the layer's own
  have hclass : ∀ b, class_of T false proto b = proto := fun _ => rfl
  unfold turn_at
  rw [walk]
  simp only [hclass]
  generalize hpre : parent.elim 0 (fun p => T.framing p proto) = pre
  -- Too few octets for the header leave the rest to `leftover`, in the walk as in the turn.
  by_cases hshort : buf.length - off < (T.desc proto).min_len + pre
  · refine .inl ⟨?_, ?_⟩
    · rw [if_pos hshort]
      rfl
    · rw [if_pos hshort]
      unfold leftover
      split <;> rfl
  · have hbehind : behind T buf parent proto off = slice buf (off + pre) buf.length := by
      rw [behind, hpre]
    rw [if_neg hshort, if_neg hshort, tightened_unbounded, ← hbehind]
    refine .inr ⟨⟨proto, off, _, buf.length - off⟩, rfl, rfl, ?_⟩
    apply congrArg (List.cons _)
    split
    · cases next_of T proto (behind T buf parent proto off) <;> rfl
    · rfl

/-- **Every layer of an unbounded walk is what its own turn reads.** -/
theorem walk_again (n off : ℕ) (proto : ProtoId) (parent : Option ProtoId) (j : ℕ) :
    ((walk T buf false n off buf.length proto parent).1.map LayerSpan.place)[j]? =
      again T buf n parent proto off
        ((walk T buf false n off buf.length proto parent).1.map LayerSpan.place) j := by
  induction n generalizing off proto parent j with
  | zero => rfl
  | succ n ih =>
    rcases walk_unbounded_succ T buf n off proto parent with ⟨hw, hturn⟩ | ⟨s, hoff, hturn, hw⟩
    · -- what is left is one `Raw` layer at most, and it reaches the end
      rw [hw]
      by_cases hroom : buf.length - off > 0
      · have hleft : leftover off buf.length =
            [⟨.Raw, off, buf.length - off, buf.length - off⟩] := if_pos hroom
        rw [hleft] at hturn ⊢
        cases j with
        | zero => exact hturn.symm
        | succ k =>
          refine (again_last T buf _ _ _ _ _ _ (if_neg ?_)).symm
          show ¬ off + (buf.length - off) < buf.length
          omega
      · have hleft : leftover off buf.length = [] := if_neg hroom
        rw [hleft] at hturn ⊢
        cases j with
        | zero => exact hturn.symm
        | succ k =>
          unfold again
          split <;> rfl
    · -- the layer and the turns behind it, each shifted by one
      rw [hw]
      cases j with
      | zero => exact hturn.symm
      | succ k =>
        by_cases hlt : off + s.hlen < buf.length
        · rw [if_pos hlt]
          cases hnext : (next_of T s.proto (behind T buf parent s.proto off)).named with
          | none =>
            refine (again_last T buf _ _ _ _ _ _ ?_).symm
            show (if s.off + s.hlen < buf.length then _ else none) = none
            rw [hoff, if_pos hlt]
            show (next_of T s.proto (behind T buf parent s.proto s.off)).named.bind _ = none
            rw [hoff, hnext]
            rfl
          | some p =>
            subst hoff
            exact (ih (s.off + s.hlen) p (some s.proto) k).trans
              (again_cons T buf n parent proto s.off s.place _ p k hlt hnext).symm
        · rw [if_neg hlt]
          refine (again_last T buf _ _ _ _ _ _ (if_neg ?_)).symm
          show ¬ s.off + s.hlen < buf.length
          rwa [hoff]

/-- The turn of layer `j` looks at the layers before it only. -/
theorem again_congr (n : ℕ) (parent : Option ProtoId) (proto : ProtoId) (off : ℕ)
    {spans spans' : List (ProtoId × ℕ × ℕ)} {j : ℕ} (h : ∀ k < j, spans[k]? = spans'[k]?) :
    again T buf n parent proto off spans j = again T buf n parent proto off spans' j := by
  unfold again
  split
  · cases j with
    | zero => rfl
    | succ k =>
      have hparent : parent_at parent spans k = parent_at parent spans' k := by
        cases k with
        | zero => rfl
        | succ m => exact congrArg (Option.map Prod.fst) (h m (by omega))
      dsimp only
      rw [h k (Nat.lt_succ_self k), hparent]
  · rfl

/-- **The first layers of an unbounded walk are those of `spans` exactly when each of these reads
again where it stood**, the layers before it being as they were. -/
theorem walk_keeps_iff (n off : ℕ) (proto : ProtoId) (parent : Option ProtoId)
    (spans : List (ProtoId × ℕ × ℕ)) (i : ℕ) :
    (∀ j ≤ i,
        ((walk T buf false n off buf.length proto parent).1.map LayerSpan.place)[j]? = spans[j]?) ↔
      ∀ j ≤ i, again T buf n parent proto off spans j = spans[j]? := by
  constructor
  · intro hkept j hj
    rw [← hkept j hj, walk_again T buf n off proto parent j]
    exact again_congr T buf n parent proto off fun k hk => (hkept k (by omega)).symm
  · -- by induction on the layer: the ones before it are as they were
    intro hagain j
    induction j using Nat.strong_induction_on with
    | _ j ih =>
      intro hj
      rw [walk_again T buf n off proto parent j, ← hagain j hj]
      exact again_congr T buf n parent proto off fun k hk => ih k hk (by omega)

/-- An unbounded walk runs to the end of the octets, so it leaves no `Padding`. -/
theorem walk_unbounded_end (n off end_ : ℕ) (proto : ProtoId) (parent : Option ProtoId) :
    (walk T buf false n off end_ proto parent).2 = end_ := by
  induction n generalizing off proto parent with
  | zero => rfl
  | succ n ih =>
    rw [walk]
    simp only [tightened_unbounded]
    split
    · rfl
    · dsimp only
      split
      · split
        · exact ih _ _ _
        · exact ih _ _ _
        · rfl
      · rfl

end Turn

/-! ## Classes that read their own header only

What a layer is read as may turn on the octets behind its header: `Raw` owns them, a port is asked
with the payload in hand. The classes below look no further than the header itself. Their layers are the
same whatever is put behind them. -/

/-- How long a header of the class is: what it says, and no less than the shortest. -/
def ProtoDesc.length (d : ProtoDesc) (hdr : Bytes) : ℕ := max (d.header_len hdr) d.min_len

/-- A class whose header tells by itself how long it is. It has an octet at least, and no other class is
dissected as it. -/
structure OwnHeader (T : Table) (p : ProtoId) : Prop where
  some_octet : 0 < (T.desc p).min_len
  no_variant : ∀ q b, T.resolve q b = p → q = p
  length : ∀ hdr rest : Bytes, (T.desc p).length hdr ≤ hdr.length →
    (T.desc p).length (hdr.take ((T.desc p).length hdr) ++ rest) = (T.desc p).length hdr

/-- A header that tells by itself what follows it. -/
def OwnNext (T : Table) (p : ProtoId) (hdr : Bytes) : Prop :=
  (T.desc p).length hdr ≤ hdr.length → ∀ rest : Bytes,
    (next_of T p (hdr.take ((T.desc p).length hdr) ++ rest)).named = (next_of T p hdr).named

/-- The octets a layer of a dissection was read by, under the layer before it. -/
def LayerSpan.view (T : Table) (buf : Bytes) (parent : Option ProtoId) (s : LayerSpan) : Bytes :=
  slice buf (s.off + parent.elim 0 fun p => T.framing p s.proto) (s.off + s.total)

/-- The header of a layer is as long as it says: the capture did not cut it short. -/
def Whole (T : Table) (buf : Bytes) (parent : Option ProtoId) (s : LayerSpan) : Prop :=
  s.hlen = (parent.elim 0 fun p => T.framing p s.proto) + (T.desc s.proto).length (s.view T buf parent)

instance (T : Table) (buf : Bytes) (parent : Option ProtoId) (s : LayerSpan) : Decidable (Whole T buf parent s) :=
  inferInstanceAs (Decidable (_ = _))

section Own

variable {T : Table} {buf : Bytes}

/-- One turn of a fresh walk: what is left unread, or a layer by what its header says, and the turns
behind it. -/
theorem walk_bound_succ (T : Table) (buf : Bytes) (n off end_ : ℕ) (proto : ProtoId)
    (parent : Option ProtoId) :
    (walk T buf true (n + 1) off end_ proto parent).1 = leftover off end_ ∨
      ∃ s pre stop, s.off = off ∧ s.proto = T.resolve proto (slice buf (min off end_) end_) ∧
        s.total = end_ - off ∧ pre = parent.elim 0 (fun p => T.framing p s.proto) ∧
        (T.desc s.proto).min_len + pre ≤ end_ - off ∧
        s.hlen = min (pre + (T.desc s.proto).length (slice buf (off + pre) end_)) (end_ - off) ∧
        stop ≤ end_ ∧
        (walk T buf true (n + 1) off end_ proto parent).1 = s ::
          (if off + s.hlen < stop then
            (next_of T s.proto (slice buf (off + pre) end_)).named.elim [] fun p =>
              (walk T buf true n (off + s.hlen) stop p (some s.proto)).1
          else []) := by
  -- The layer's class and its framing do not depend on the bound that is left.
  rw [walk]
  dsimp only
  have hclass : class_of T true proto (slice buf (min off end_) end_) =
      T.resolve proto (slice buf (min off end_) end_) := rfl
  rw [hclass]
  generalize T.resolve proto (slice buf (min off end_) end_) = p
  generalize hpre : parent.elim 0 (fun q => T.framing q p) = pre
  -- Too short for the layer: the rest is left over under either bound.
  by_cases hshort : end_ - off < (T.desc p).min_len + pre
  · left
    rw [if_pos hshort]
    rfl
  · right
    rw [if_neg hshort]
    generalize hhlen : min (pre + max ((T.desc p).header_len (slice buf (off + pre) end_)) (T.desc p).min_len)
      (end_ - off) = hlen
    refine ⟨⟨p, off, hlen, end_ - off⟩, pre, _, rfl, rfl, rfl, hpre.symm, by dsimp only; omega, hhlen.symm,
      tightened_le true (T.desc p) (slice buf (off + pre) end_) pre off hlen end_, ?_⟩
    apply congrArg (List.cons _)
    split
    · cases next_of T p (slice buf (off + pre) end_) <;> rfl
    · rfl

/-- The octets kept up to `cut` and `data` behind them, read from inside a header that ends before
the cut: the header, and what follows it there. -/
theorem slice_carried {a n cut end_ : ℕ} (hn : a + n ≤ cut) (hcut : cut ≤ end_) (hend : end_ ≤ buf.length)
    (data : Bytes) :
    ∃ rest, slice (buf.take cut ++ data) a (buf.take cut ++ data).length =
      (slice buf a end_).take n ++ rest := by
  refine ⟨(buf.take cut).drop (a + n) ++ data, ?_⟩
  have hkept : (slice buf a end_).take n = ((buf.take cut).drop a).take n := by
    unfold slice
    rw [List.take_drop, List.take_drop, List.take_take, List.take_take, Nat.min_eq_left (by omega),
      Nat.min_eq_left (by omega)]
  have hlen : (buf.take cut).length = cut := List.length_take_of_le (by omega)
  rw [slice, List.take_length, List.drop_append_of_le_length (by omega), hkept, ← List.drop_drop,
    ← List.append_assoc, List.take_append_drop]

/-- A whole header with a class of its own is read again over such octets, and is followed by them. -/
theorem OwnHeader.reads_again {p : ProtoId} (h : OwnHeader T p) {parent : Option ProtoId}
    {off pre n cut end_ : ℕ} (hpre : pre = parent.elim 0 fun q => T.framing q p)
    (hn : n = (T.desc p).length (slice buf (off + pre) end_)) (hkept : off + (pre + n) ≤ cut)
    (hcut : cut ≤ end_) (hend : end_ ≤ buf.length) (data : Bytes) :
    n ≤ (slice buf (off + pre) end_).length ∧
      turn_at T (buf.take cut ++ data) parent p off = some (p, off, pre + n) ∧
      ∃ rest, behind T (buf.take cut ++ data) parent p off = (slice buf (off + pre) end_).take n ++ rest := by
  have hin : n ≤ (slice buf (off + pre) end_).length := by
    rw [slice, List.length_drop, List.length_take_of_le hend]
    omega
  obtain ⟨rest, hrest⟩ := slice_carried (by omega : off + pre + n ≤ cut) hcut hend data
  have hbehind : behind T (buf.take cut ++ data) parent p off = (slice buf (off + pre) end_).take n ++ rest := by
    rw [behind, ← hpre]
    exact hrest
  refine ⟨hin, ?_, rest, hbehind⟩
  -- The length is told by the header alone, which is carried over whole.
  have hsame : (T.desc p).length ((slice buf (off + pre) end_).take n ++ rest) = n := by
    rw [hn] at hin ⊢
    exact h.length _ rest hin
  have hmin : (T.desc p).min_len ≤ n := by
    rw [hn]
    exact Nat.le_max_right _ _
  have hlen : (buf.take cut ++ data).length = cut + data.length := by
    rw [List.length_append, List.length_take_of_le (by omega)]
  unfold turn_at
  dsimp only
  rw [← hpre, if_neg (by omega), hbehind]
  show some (p, off, min (pre + (T.desc p).length _) _) = _
  rw [hsame, Nat.min_eq_left (by omega)]

theorem Whole.some_octet {parent : Option ProtoId} {s : LayerSpan} (h : Whole T buf parent s)
    (hown : OwnHeader T s.proto) : 0 < s.hlen := by
  have hmin := hown.some_octet
  have hlong : (T.desc s.proto).min_len ≤ s.hlen := by
    rw [h]
    exact (Nat.le_max_right _ _).trans (Nat.le_add_left _ _)
  omega

/-- A layer with a header of its own is no rest that was left unread: that is `Raw`. -/
theorem OwnHeader.not_leftover (hraw : (T.desc .Raw).min_len = 0) {off end_ : ℕ} {s : LayerSpan}
    (h : OwnHeader T s.proto) : s ∉ leftover off end_ := by
  intro hmem
  have hsome := h.some_octet
  unfold leftover at hmem
  split at hmem
  · rw [List.mem_singleton.1 hmem, hraw] at hsome
    exact absurd hsome (Nat.lt_irrefl 0)
  · cases hmem

/-- The first layer of a fresh walk is of the class that was asked for. -/
theorem OwnHeader.first_class (hraw : (T.desc .Raw).min_len = 0) {n off end_ : ℕ} {proto : ProtoId}
    {parent : Option ProtoId} {t : LayerSpan} (h : OwnHeader T t.proto)
    (ht : (walk T buf true (n + 1) off end_ proto parent).1[0]? = some t) : proto = t.proto := by
  rcases walk_bound_succ T buf n off end_ proto parent with
    hleft | ⟨t', pre, stop, -, hclass, -, -, -, -, -, hw⟩
  · rw [hleft] at ht
    exact absurd (List.mem_of_getElem? ht) (h.not_leftover hraw)
  · rw [hw] at ht
    obtain rfl := Option.some.inj ht
    exact h.no_variant _ _ hclass.symm

/-- A layer in front shifts what the layers behind it are read under. -/
theorem parent_at_cons (parent : Option ProtoId) (s : ProtoId × ℕ × ℕ) (spans : List (ProtoId × ℕ × ℕ)) (j : ℕ) :
    parent_at parent (s :: spans) (j + 1) = parent_at (some s.1) spans j := by
  cases j with
  | zero => rfl
  | succ k => rfl

/-- **The layers of a fresh walk are read again whatever is put behind the last of them**, where each
reads its own header only, each before the last names by it what follows, and the last is whole. -/
theorem walk_keeps_own (hraw : (T.desc .Raw).min_len = 0) (data : Bytes) {i : ℕ} {s : LayerSpan}
    (n off end_ : ℕ) (proto : ProtoId) (parent : Option ProtoId) (hoff : off ≤ end_)
    (hend : end_ ≤ buf.length)
    (hs : (walk T buf true n off end_ proto parent).1[i]? = some s)
    (hown : ∀ j ≤ i, ∀ t ∈ (walk T buf true n off end_ proto parent).1[j]?, OwnHeader T t.proto)
    (hnext : ∀ j < i, ∀ t ∈ (walk T buf true n off end_ proto parent).1[j]?, OwnNext T t.proto
      (t.view T buf (parent_at parent ((walk T buf true n off end_ proto parent).1.map LayerSpan.place) j)))
    (hwhole : Whole T buf
      (parent_at parent ((walk T buf true n off end_ proto parent).1.map LayerSpan.place) i) s) :
    ∀ j ≤ i, ((walk T (buf.take (s.off + s.hlen) ++ data) false n off
        (buf.take (s.off + s.hlen) ++ data).length proto parent).1.map LayerSpan.place)[j]? =
      ((walk T buf true n off end_ proto parent).1.map LayerSpan.place)[j]? := by
  -- by induction on the turns: the first layer reads again, and the walk goes on behind it as before
  induction n generalizing i off end_ proto parent with
  | zero => cases hs
  | succ n ih =>
    have hfits := (walk_fits T hraw buf true (n + 1) off end_ proto parent hoff).1
    rcases walk_bound_succ T buf n off end_ proto parent with
      hleft | ⟨t, pre, stop, htoff, hclass, htotal, hpre, hroom, hhlen, hstop, hw⟩
    -- what is left unread is `Raw`, and `Raw` does not read its own header only
    · rw [hleft] at hs hown
      exact absurd (List.mem_of_getElem? hs) ((hown i le_rfl s hs).not_leftover hraw)
    rw [hw] at hs hown hnext hwhole hfits ⊢
    have hownt := hown 0 (Nat.zero_le i) t rfl
    obtain rfl : proto = t.proto := hownt.no_variant _ _ hclass.symm
    subst htoff
    have hview : t.view T buf parent = slice buf (t.off + pre) end_ := by
      rw [LayerSpan.view, ← hpre, show t.off + t.total = end_ by omega]
    have hfit := hfits s (List.mem_of_getElem? hs)
    have hcut : s.off + s.hlen ≤ end_ := by
      have hend_s := hfit.le_end
      have hle_s := hfit.hlen_le
      omega
    cases i with
    | zero =>
      -- the last layer: what is put behind it does not reach its header
      obtain rfl := Option.some.inj hs
      have hlength : t.hlen = pre + (T.desc t.proto).length (slice buf (t.off + pre) end_) := by
        rw [← hview, hpre]
        exact hwhole
      have hkept : t.off + (pre + (T.desc t.proto).length (slice buf (t.off + pre) end_)) ≤ t.off + t.hlen := by
        omega
      obtain ⟨-, hturn, -⟩ := hownt.reads_again hpre rfl hkept hcut hend data
      rw [← hlength] at hturn
      intro j hj
      obtain rfl := Nat.le_zero.1 hj
      have hagain := walk_again T (buf.take (t.off + t.hlen) ++ data) (n + 1) t.off t.proto parent 0
      exact hagain.trans ((if_pos (Nat.succ_pos n)).trans hturn)
    | succ m =>
      rw [List.getElem?_cons_succ] at hs
      split at hs
      · rename_i hmore
        rw [if_pos hmore] at hown hnext hwhole ⊢
        obtain ⟨p, hp⟩ : ∃ p, (next_of T t.proto (slice buf (t.off + pre) end_)).named = some p := by
          rw [← Option.isSome_iff_exists, Option.isSome_iff_ne_none]
          intro hnone
          rw [hnone] at hs
          cases hs
        rw [hp] at hs hown hnext hwhole ⊢
        have hs' : (walk T buf true n (t.off + t.hlen) stop p (some t.proto)).1[m]? = some s := hs
        have hfollows := ((walk_fits T hraw buf true n (t.off + t.hlen) stop p (some t.proto)
          (by omega)).1 s (List.mem_of_getElem? hs')).le_off
        -- something follows this layer, so it is whole, and the last one has an octet
        have hlength : t.hlen = pre + (T.desc t.proto).length (slice buf (t.off + pre) end_) := by
          rw [hhlen] at hmore ⊢
          omega
        have hsome := hwhole.some_octet (hown (m + 1) le_rfl s hs)
        have hkept : t.off + (pre + (T.desc t.proto).length (slice buf (t.off + pre) end_)) ≤ s.off + s.hlen := by
          omega
        obtain ⟨hin, hturn, rest, hbehind⟩ := hownt.reads_again hpre rfl hkept hcut hend data
        rw [← hlength] at hturn
        have hnamed : (next_of T t.proto
            (behind T (buf.take (s.off + s.hlen) ++ data) parent t.proto t.off)).named = some p := by
          have hsame := hnext 0 (Nat.succ_pos m) t rfl
          rw [show parent_at parent _ 0 = parent from rfl, hview] at hsame
          rw [hbehind, hsame hin rest, hp]
        have hlen : (buf.take (s.off + s.hlen) ++ data).length = s.off + s.hlen + data.length := by
          rw [List.length_append, List.length_take_of_le (by omega)]
        rcases walk_unbounded_succ T (buf.take (s.off + s.hlen) ++ data) n t.off t.proto parent with
          ⟨-, hleft⟩ | ⟨t', -, ht', hw'⟩
        · rw [hturn] at hleft
          unfold leftover at hleft
          split at hleft
          · have hproto : t.proto = .Raw := congrArg Prod.fst (Option.some.inj hleft)
            have hsome := hownt.some_octet
            rw [hproto, hraw] at hsome
            exact absurd hsome (Nat.lt_irrefl 0)
          · cases hleft
        have hplace : t'.place = t.place := Option.some.inj (ht'.symm.trans hturn)
        have hproto : t'.proto = t.proto := congrArg Prod.fst hplace
        have hhlen' : t'.hlen = t.hlen := congrArg (·.2.2) hplace
        rw [hw', hproto, hhlen', if_pos (by omega), hnamed]
        intro j hj
        cases j with
        | zero => exact congrArg some hplace
        | succ k =>
          rw [List.map_cons, parent_at_cons] at hwhole
          refine ih (t.off + t.hlen) stop p (some t.proto) (by omega) (by omega) hs'
            (fun j hj u hu => hown (j + 1) (by omega) u hu) (fun j hj u hu => ?_) hwhole k (by omega)
          have hsame := hnext (j + 1) (by omega) u hu
          rw [List.map_cons, parent_at_cons] at hsame
          exact hsame
      · cases hs

end Own

/-! ## Which classes those are

The link layers, IP and the transports of the core read their own header only. What follows Ethernet,
802.1Q and IPv4 is told by the header as well, where no binding of the user's is asked; what follows
IPv6 too, except for the ICMPv6 messages that are classes of their own. A port is not: it is asked with the
payload in hand. -/

section Classes

variable (R : Registry)

/-- No class of the core is a variant of another. -/
theorem own_class (hvariant : ∀ n b, ∃ m, R.resolve n b = .other m) {p : ProtoId} (hcore : ∀ m, p ≠ .other m)
    (q : ProtoId) (b : Bytes) (h : R.layers.table.resolve q b = p) : q = p := by
  cases q with
  | other n =>
    obtain ⟨m, hm⟩ := hvariant n b
    exact absurd (h.symm.trans hm) (hcore m)
  | _ => exact h

/-- A header that is always of one length. -/
theorem own_header_fixed (hvariant : ∀ n b, ∃ m, R.resolve n b = .other m) {p : ProtoId}
    (hcore : ∀ m, p ≠ .other m) (hmin : 0 < (R.layers.table.desc p).min_len) {n : ℕ}
    (hlen : ∀ hdr, (R.layers.table.desc p).length hdr = n) : OwnHeader R.layers.table p where
  some_octet := hmin
  no_variant := own_class R hvariant hcore
  length hdr rest _ := by rw [hlen, hlen]

theorem own_header_ether (hvariant : ∀ n b, ∃ m, R.resolve n b = .other m) : OwnHeader R.layers.table .Ether :=
  own_header_fixed R hvariant (by rintro m ⟨⟩) (show 0 < 14 by decide) fun _ => rfl

theorem own_header_dot1q (hvariant : ∀ n b, ∃ m, R.resolve n b = .other m) : OwnHeader R.layers.table .Dot1Q :=
  own_header_fixed R hvariant (by rintro m ⟨⟩) (show 0 < 4 by decide) fun _ => rfl

theorem own_header_ipv6 (hvariant : ∀ n b, ∃ m, R.resolve n b = .other m) : OwnHeader R.layers.table .Ipv6 :=
  own_header_fixed R hvariant (by rintro m ⟨⟩) (show 0 < 40 by decide) fun _ => rfl

theorem own_header_udp (hvariant : ∀ n b, ∃ m, R.resolve n b = .other m) : OwnHeader R.layers.table .Udp :=
  own_header_fixed R hvariant (by rintro m ⟨⟩) (show 0 < 8 by decide) fun _ => rfl

/-- An octet of the header is where it was, whatever follows. -/
theorem getD_take_append {hdr : Bytes} {k n : ℕ} (hk : k < n) (hn : n ≤ hdr.length) (rest : Bytes) :
    (hdr.take n ++ rest).getD k 0 = hdr.getD k 0 := by
  rw [List.getD_eq_getElem?_getD, List.getD_eq_getElem?_getD,
    List.getElem?_append_left (by rw [List.length_take_of_le hn]; exact hk), List.getElem?_take_of_lt hk]

theorem be16_take_append {hdr : Bytes} {k n : ℕ} (hk : k + 1 < n) (hn : n ≤ hdr.length) (rest : Bytes) :
    be16 (hdr.take n ++ rest) k = be16 hdr k := by
  unfold be16
  rw [getD_take_append (by omega) hn, getD_take_append hk hn]

theorem length_take_append {hdr : Bytes} {n : ℕ} (hn : n ≤ hdr.length) (rest : Bytes) :
    n ≤ (hdr.take n ++ rest).length := by
  rw [List.length_append, List.length_take_of_le hn]
  exact Nat.le_add_right _ _

/-- The header length of IPv4 is in its first octet. -/
theorem own_header_ipv4 (hvariant : ∀ n b, ∃ m, R.resolve n b = .other m) : OwnHeader R.layers.table .Ipv4 where
  some_octet := show 0 < 20 by decide
  no_variant := own_class R hvariant (by rintro m ⟨⟩)
  length hdr rest hin := by
    have hlong : 20 ≤ (R.layers.table.desc .Ipv4).length hdr := Nat.le_max_right _ _
    have hlonger := length_take_append hin rest
    have hread : ∀ h : Bytes, 20 ≤ h.length → (R.layers.table.desc .Ipv4).length h =
        max (max ((h.getD 0 0 &&& 0x0f).toNat * 4) 20) 20 := by
      intro h hh
      show max (if h.isEmpty then 20 else _) 20 = _
      rw [if_neg (by rw [List.isEmpty_iff]; rintro rfl; exact absurd hh (by decide))]
    rw [hread _ (hlong.trans hlonger), getD_take_append (by omega) hin, ← hread hdr (hlong.trans hin)]

/-- The data offset of TCP is in its thirteenth. -/
theorem own_header_tcp (hvariant : ∀ n b, ∃ m, R.resolve n b = .other m) : OwnHeader R.layers.table .Tcp where
  some_octet := show 0 < 20 by decide
  no_variant := own_class R hvariant (by rintro m ⟨⟩)
  length hdr rest hin := by
    have hlong : 20 ≤ (R.layers.table.desc .Tcp).length hdr := Nat.le_max_right _ _
    have hlonger := length_take_append hin rest
    have hread : ∀ h : Bytes, 20 ≤ h.length → (R.layers.table.desc .Tcp).length h =
        max (max (((h.getD 12 0 >>> 4) &&& 0x0f).toNat * 4) 20) 20 := by
      intro h hh
      show max (if h.length < 13 then 20 else _) 20 = _
      rw [if_neg (by omega)]
    rw [hread _ (hlong.trans hlonger), getD_take_append (by omega) hin, ← hread hdr (hlong.trans hin)]

/-- Where no binding of the user's is asked, a class of its own `next` that the header tells. -/
theorem own_next_of {p : ProtoId} {hdr : Bytes} (hbind : ∀ hdr, R.bound_next p hdr = none)
    (hlayer : ∀ hdr, R.layers.table.by_layer p hdr = none)
    (hnext : ∀ rest, (R.layers.table.desc p).length hdr ≤ hdr.length → (R.layers.table.desc p).next
      (hdr.take ((R.layers.table.desc p).length hdr) ++ rest) = (R.layers.table.desc p).next hdr) :
    OwnNext R.layers.table p hdr := by
  intro hin rest
  have hguess : ∀ h : Bytes, next_of R.layers.table p h = (R.layers.table.desc p).next h := by
    intro h
    have hnone : R.layers.table.bound_next p h = none := hbind h
    unfold next_of
    rw [hnone, hlayer]
    cases (R.layers.table.desc p).next h <;> rfl
  rw [hguess, hguess, hnext rest hin]

/-- The type of an Ethernet header names what follows it. -/
theorem own_next_ether (hbind : ∀ hdr, R.bound_next .Ether hdr = none) (hdr : Bytes) :
    OwnNext R.layers.table .Ether hdr := by
  refine own_next_of R hbind (fun _ => rfl) fun rest hin => ?_
  have hlong : 14 ≤ (R.layers.table.desc .Ether).length hdr := Nat.le_max_right _ _
  have hlonger := length_take_append hin rest
  have hread : ∀ h : Bytes, 14 ≤ h.length → (R.layers.table.desc .Ether).next h =
      if be16 h 12 ≤ 1500 then .Proto .Llc else from_ethertype R.layers (be16 h 12) :=
    fun h hh => if_neg (by omega)
  rw [hread _ (hlong.trans hlonger), hread hdr (hlong.trans hin), be16_take_append (by omega) hin]

/-- The protocol of an IPv4 header does, and its fragment offset. -/
theorem own_next_ipv4 (hbind : ∀ hdr, R.bound_next .Ipv4 hdr = none) (hdr : Bytes) :
    OwnNext R.layers.table .Ipv4 hdr := by
  refine own_next_of R hbind (fun _ => rfl) fun rest hin => ?_
  have hlong : 20 ≤ (R.layers.table.desc .Ipv4).length hdr := Nat.le_max_right _ _
  have hlonger := length_take_append hin rest
  have hread : ∀ h : Bytes, 20 ≤ h.length → (R.layers.table.desc .Ipv4).next h =
      if be16 h 6 &&& 0x1fff ≠ 0 then .Raw else from_ipproto R.layers (h.getD 9 0) :=
    fun h hh => if_neg (by omega)
  rw [hread _ (hlong.trans hlonger), hread hdr (hlong.trans hin), be16_take_append (by omega) hin,
    getD_take_append (by omega) hin]

/-- The next header of IPv6 does, unless it says ICMPv6: then the message's type is asked. -/
theorem own_next_ipv6 (hbind : ∀ hdr, R.bound_next .Ipv6 hdr = none) {hdr : Bytes} (htype : hdr.getD 6 0 ≠ 58) :
    OwnNext R.layers.table .Ipv6 hdr := by
  refine own_next_of R hbind (fun _ => rfl) fun rest hin => ?_
  have hlong : 40 ≤ (R.layers.table.desc .Ipv6).length hdr := Nat.le_max_right _ _
  have hlonger := length_take_append hin rest
  have hread : ∀ h : Bytes, 40 ≤ h.length → h.getD 6 0 ≠ 58 → (R.layers.table.desc .Ipv6).next h =
      next_header R.layers (h.getD 6 0) := by
    intro h hh htype
    show (if h.length < 40 then _ else _) = _
    rw [if_neg (by omega), if_neg htype]
  have hsame := getD_take_append (by omega : 6 < (R.layers.table.desc .Ipv6).length hdr) hin rest
  rw [hread _ (hlong.trans hlonger) (by rw [hsame]; exact htype), hread hdr (hlong.trans hin) htype, hsame]

end Classes

end Wiry.Packet
