/-
`Packet::replace_region` of `crates/wiry-core/src/packet.rs`: a variable-length field is written
over, the frame resizes with it, and a dissection of what is serialised finds the layer again.

The proof goes in three stages. Packets that are built or dissected have their
layers one behind the other (`Stacked`); a splice with the length told again
moves the layers behind it and touches none in front (`Rewritten`); and the
splice is what the source computes, with its clamps gone (`set_bytes_eq`).
-/
import Wiry.Packet.Payload
import Wiry.Packet.Reach

set_option autoImplicit false

namespace Wiry.Packet

/-! ## Headers one behind the other -/

/-- Headers in the order they stand in, none past the end of the buffer. -/
structure Stacked (spans : List LayerSpan) (buf : Bytes) : Prop where
  apart : spans.Pairwise fun s t => s.off + s.hlen ≤ t.off
  inside : ∀ s ∈ spans, s.Inside buf

theorem Stacked.le {spans : List LayerSpan} {buf : Bytes} (h : Stacked spans buf) {i j : ℕ}
    (hij : i < j) {s t : LayerSpan} (hs : spans[i]? = some s) (ht : spans[j]? = some t) :
    s.off + s.hlen ≤ t.off := by
  obtain ⟨hi, rfl⟩ := List.getElem?_eq_some_iff.1 hs
  obtain ⟨hj, rfl⟩ := List.getElem?_eq_some_iff.1 ht
  exact List.pairwise_iff_getElem.1 h.apart i j hi hj hij

/-- What a layer's header length was read off: the octets from the layer to the end in force, any
framing before them. A layer with no room for its shortest header is `Raw`. -/
def Measured (T : Table) (buf : Bytes) (s : LayerSpan) : Prop :=
  s.proto = .Raw ∧ s.hlen = s.total ∨ ∃ (parent : Option ProtoId) (pre : ℕ),
    pre = parent.elim 0 (fun p => T.framing p s.proto) ∧
    (T.desc s.proto).min_len + pre ≤ s.total ∧
    s.hlen = min (pre + max ((T.desc s.proto).header_len (slice buf (s.off + pre) (s.off + s.total)))
      (T.desc s.proto).min_len) s.total

theorem le_tightened (bound : Bool) (d : ProtoDesc) (hdr : Bytes) (pre : ℕ) {off hlen end_ : ℕ}
    (h : off + hlen ≤ end_) : off + hlen ≤ tightened bound d hdr pre off hlen end_ := by
  unfold tightened
  split
  · split
    · omega
    · exact h
  · exact h

/-- The layers of a walk, each inside the one before it and measured where it stands. -/
structure Walked (T : Table) (buf : Bytes) (off end_ : ℕ) (spans : List LayerSpan) (stop : ℕ) :
    Prop where
  le_stop : off ≤ stop
  stop_le : stop ≤ end_
  within : ∀ s ∈ spans, off ≤ s.off ∧ s.off + s.hlen ≤ stop ∧ s.off + s.total ≤ end_
  nested : spans.Pairwise fun s t =>
    s.off + s.hlen ≤ t.off ∧ t.off + t.total ≤ s.off + s.total ∧ 0 < t.total
  total_pos : off < end_ → ∀ s ∈ spans, 0 < s.total
  measured : ∀ s ∈ spans, Measured T buf s

theorem Walked.nil (T : Table) (buf : Bytes) {off stop end_ : ℕ} (hoff : off ≤ stop)
    (hstop : stop ≤ end_) : Walked T buf off end_ [] stop :=
  ⟨hoff, hstop, nofun, .nil, fun _ => nofun, nofun⟩

/-- A layer in front of the walk behind it. -/
theorem Walked.cons {T : Table} {buf : Bytes} {s : LayerSpan} {spans : List LayerSpan}
    {off end_ mid stop : ℕ} (hoff : s.off = off) (htotal : s.off + s.total = end_)
    (hmid : mid ≤ end_) (hs : Measured T buf s) (hpos : off < end_ → 0 < s.total)
    (hlater : spans ≠ [] → off + s.hlen < mid) (h : Walked T buf (off + s.hlen) mid spans stop) :
    Walked T buf off end_ (s :: spans) stop where
  le_stop := by
    have := h.le_stop
    omega
  stop_le := h.stop_le.trans hmid
  within := by
    have hle := h.le_stop
    -- The first layer reaches to the end of the region, the later ones lie behind its header.
    refine List.forall_mem_cons.2 ⟨⟨by omega, by omega, by omega⟩, ?_⟩
    intro t ht
    obtain ⟨h1, h2, h3⟩ := h.within t ht
    exact ⟨by omega, h2, by omega⟩
  nested := by
    refine List.pairwise_cons.2 ⟨?_, h.nested⟩
    intro t ht
    obtain ⟨h1, -, h3⟩ := h.within t ht
    exact ⟨by omega, by omega, h.total_pos (hlater (List.ne_nil_of_mem ht)) t ht⟩
  total_pos hlt := by
    refine List.forall_mem_cons.2 ⟨hpos hlt, ?_⟩
    intro t ht
    exact h.total_pos (hlater (List.ne_nil_of_mem ht)) t ht
  measured := List.forall_mem_cons.2 ⟨hs, h.measured⟩

/-- The walk of the dissector as a derivation: each span hangs on the one before it and claims its
own end. -/
theorem walk_walked (T : Table) (buf : Bytes) (n off end_ : ℕ) (proto : ProtoId)
    (parent : Option ProtoId) (hoff : off ≤ end_) :
    Walked T buf off end_ (walk T buf true n off end_ proto parent).1
      (walk T buf true n off end_ proto parent).2 := by
  induction n generalizing off end_ proto parent with
  | zero => exact Walked.nil T buf hoff le_rfl
  | succ n ih =>
    rw [walk]
    dsimp only
    generalize class_of T true proto (slice buf (min off end_) end_) = proto'
    obtain ⟨pre, hpre⟩ : ∃ pre, pre = parent.elim 0 (fun p => T.framing p proto') := ⟨_, rfl⟩
    rw [← hpre]
    split
    · -- too short for the layer: what is left is `Raw`
      dsimp only
      split
      · rename_i hroom
        refine Walked.cons rfl ?_ le_rfl (.inl ⟨rfl, rfl⟩) (fun _ => hroom) (fun h => absurd rfl h)
          (Walked.nil T buf ?_ le_rfl) <;> (dsimp only; omega)
      · exact Walked.nil T buf hoff le_rfl
    · rename_i hroom
      generalize hhdr : slice buf (off + pre) end_ = hdr
      generalize hhlen : min (pre + max ((T.desc proto').header_len hdr) (T.desc proto').min_len)
        (end_ - off) = hlen
      have hfit : off + hlen ≤ end_ := by omega
      have hle := le_tightened true (T.desc proto') hdr pre hfit
      have hstop := tightened_le true (T.desc proto') hdr pre off hlen end_
      generalize tightened true (T.desc proto') hdr pre off hlen end_ = stop at hle hstop ⊢
      have htotal : off + (end_ - off) = end_ := by omega
      have hmeasured : Measured T buf ⟨proto', off, hlen, end_ - off⟩ := by
        refine .inr ⟨parent, pre, hpre, ?_, ?_⟩
        · dsimp only
          omega
        · dsimp only
          rw [htotal, hhdr, hhlen]
      have hpos : off < end_ → 0 < end_ - off := by omega
      have hnone : Walked T buf off end_ [⟨proto', off, hlen, end_ - off⟩] stop :=
        Walked.cons rfl htotal hstop hmeasured hpos (fun h => absurd rfl h)
          (Walked.nil T buf hle le_rfl)
      have hmore : ∀ p, off + hlen < stop → Walked T buf off end_
          (⟨proto', off, hlen, end_ - off⟩ :: (walk T buf true n (off + hlen) stop p (some proto')).1)
          (walk T buf true n (off + hlen) stop p (some proto')).2 := by
        intro p hlt
        exact Walked.cons rfl htotal hstop hmeasured hpos (fun _ => hlt)
          (ih (off + hlen) stop p (some proto') hle)
      split
      · rename_i hlt
        split
        · exact hmore _ hlt
        · exact hmore _ hlt
        · exact hnone
      · exact hnone

/-! ## Packets as they are dissected or built -/

section Made

variable (R : Registry)

/-- The layers of a dissection, and the `Padding` behind the end they declare. -/
theorem dissect_walked (buf : Bytes) (link : ProtoId) :
    ∃ spans stop, Walked R.layers.table buf 0 buf.length spans stop ∧
      (dissect R buf link).spans = spans ++
        if stop < buf.length then [⟨.Padding, stop, buf.length - stop, buf.length - stop⟩] else [] := by
  refine ⟨_, _, walk_walked R.layers.table buf MAX_LAYERS 0 buf.length (outermost buf link) none
    (Nat.zero_le _), ?_⟩
  show spans_of _ _ _ _ = _
  unfold spans_of
  dsimp only
  split
  · rfl
  · rw [List.append_nil]

/-- Dissected spans are stacked in their buffer. -/
theorem dissect_stacked (buf : Bytes) (link : ProtoId) : Stacked (dissect R buf link).spans buf := by
  obtain ⟨spans, stop, hwalked, heq⟩ := dissect_walked R buf link
  have hstop := hwalked.stop_le
  rw [heq]
  -- A padding layer stands behind all the others; without one the walk's own bounds remain.
  split
  · constructor
    · refine List.pairwise_append.2 ⟨hwalked.nested.imp fun h => h.1, List.pairwise_singleton _ _, ?_⟩
      intro s hs t ht
      rw [List.mem_singleton.1 ht]
      exact (hwalked.within s hs).2.1
    · intro s hs
      unfold LayerSpan.Inside
      rcases List.mem_append.1 hs with hs | hs
      · have := (hwalked.within s hs).2.1
        omega
      · rw [List.mem_singleton.1 hs]
        dsimp only
        omega
  · rw [List.append_nil]
    constructor
    · exact hwalked.nested.imp fun h => h.1
    · intro s hs
      have := (hwalked.within s hs).2.1
      unfold LayerSpan.Inside
      omega

/-- A stack under construction: its last header ends where the octets do. -/
def Ends (st : Bytes × List LayerSpan) : Prop :=
  Stacked st.2 st.1 ∧ ∀ s ∈ st.2.getLast?, s.off + s.hlen = st.1.length

/-- Applying a binding keeps the header's length. -/
theorem length_apply_bind (hdr : Bytes) (parent child : ProtoId) :
    (R.apply_bind hdr parent child).length = hdr.length := by
  unfold Registry.apply_bind
  split
  · rename_i b _
    have hconds : ∀ (conds : List (FieldDesc × ℕ)) (hdr : Bytes),
        (conds.foldl (fun hdr c => write_uint hdr c.1 c.2) hdr).length = hdr.length := by
      intro conds
      induction conds with
      | nil =>
        intro hdr
        rfl
      | cons c conds ih =>
        intro hdr
        rw [List.foldl_cons, ih, length_write_uint]
    exact hconds b.conds hdr
  · rfl

/-- So does binding a child. -/
theorem length_bind_child (hdr : Bytes) (parent child : ProtoId) :
    (bind_child R hdr parent child).length = hdr.length := by
  unfold bind_child
  induction (R.base_of child).toList ++ [child] generalizing hdr with
  | nil => rfl
  | cons q qs ih =>
    rw [List.foldl_cons, ih, length_apply_bind, (R.bind_layer parent).length_run]
    split
    · rename_i bind _
      exact bind.length_run hdr q
    · rfl

theorem length_edit_slice {buf : Bytes} {a b : ℕ} {f : Bytes → Bytes} (hab : a ≤ b)
    (hb : b ≤ buf.length) (hf : (f (slice buf a b)).length = (slice buf a b).length) :
    (edit_slice buf a b f).length = buf.length := by
  have hlen : (f (slice buf a b)).length = b - a := hf.trans (length_slice hb)
  apply length_put
  rw [hlen]
  omega

/-- Building one more layer keeps every layer's end where the buffer ends. -/
theorem build_layer_ends {st : Bytes × List LayerSpan} (h : Ends st)
    (layer : ProtoId × Option Bytes) : Ends (build_layer R st layer) := by
  obtain ⟨⟨hapart, hinside⟩, hlast⟩ := h
  unfold build_layer
  dsimp only
  -- The first layer has nothing in front of it to bind.
  cases hprev : st.2.getLast? with
  | none =>
    dsimp only
    refine ⟨⟨List.pairwise_singleton _ _, ?_⟩, ?_⟩
    · intro s hs
      rw [List.mem_singleton.1 hs]
      exact Nat.le_of_eq (Nat.zero_add _)
    · rintro s ⟨⟩
      exact Nat.zero_add _
  -- Otherwise the layer in front grows by its extra octets, and the new one starts behind it.
  | some prev =>
    dsimp only
    have hend := hlast prev hprev
    have hsplit : st.2 = st.2.dropLast ++ [prev] := (List.dropLast_append_getLast? prev hprev).symm
    generalize st.2.dropLast = front at hsplit ⊢
    generalize ((R.desc prev.proto).bind_next_bytes.map fun f => f layer.1).getD [] = extra
    generalize build_header R (framing_octets prev.proto layer.1) layer.1 (layer.2.getD []) = hdr
    have hbuf : (st.1 ++ extra).length = prev.off + (prev.hlen + extra.length) := by
      rw [List.length_append, ← hend, Nat.add_assoc]
    have hbound : (edit_slice (st.1 ++ extra) prev.off
        (min (prev.off + (prev.hlen + extra.length)) (st.1 ++ extra).length) fun hdr =>
          bind_child R hdr prev.proto layer.1).length = (st.1 ++ extra).length := by
      apply length_edit_slice
      · omega
      · exact Nat.min_le_right _ _
      · exact length_bind_child R _ _ _
    generalize (edit_slice (st.1 ++ extra) prev.off
      (min (prev.off + (prev.hlen + extra.length)) (st.1 ++ extra).length) fun hdr =>
        bind_child R hdr prev.proto layer.1) = bound at hbound ⊢
    generalize st.1 ++ extra = buf at hbuf hbound ⊢
    rw [hsplit] at hapart hinside
    obtain ⟨hfront, -, hbefore⟩ := List.pairwise_append.1 hapart
    -- The spans in front are untouched, and both ends are the buffer's.
    refine ⟨⟨?_, ?_⟩, ?_⟩
    · refine List.pairwise_append.2 ⟨hfront, ?_, ?_⟩
      · refine List.pairwise_cons.2 ⟨?_, List.pairwise_singleton _ _⟩
        intro t ht
        rw [List.mem_singleton.1 ht, hbuf]
      · intro s hs t ht
        have hle := hbefore s hs prev (List.mem_singleton_self prev)
        rcases List.mem_cons.1 ht with ht | ht
        · rw [ht]
          exact hle
        · rw [List.mem_singleton.1 ht, hbuf]
          dsimp only
          omega
    · intro s hs
      unfold LayerSpan.Inside
      dsimp only
      rw [List.length_append, hbound]
      rcases List.mem_append.1 hs with hs | hs
      · have := hbefore s hs prev (List.mem_singleton_self prev)
        omega
      · rcases List.mem_cons.1 hs with hs | hs
        · rw [hs, hbuf]
          dsimp only
          omega
        · rw [List.mem_singleton.1 hs]
    · intro s hs
      have hlast' : (front ++ [{ prev with hlen := prev.hlen + extra.length },
          ⟨layer.1, buf.length, hdr.length, hdr.length⟩]).getLast? =
          some ⟨layer.1, buf.length, hdr.length, hdr.length⟩ := by
        rw [List.getLast?_append]
        rfl
      rw [hlast'] at hs
      cases hs
      dsimp only
      rw [List.length_append, hbound]

theorem stacked_refresh {pkt : Packet} (h : Stacked pkt.spans pkt.buf) :
    Stacked (refresh_totals pkt).spans (refresh_totals pkt).buf := by
  constructor
  · exact List.pairwise_map.2 h.apart
  · intro s hs
    obtain ⟨t, ht, rfl⟩ := List.mem_map.1 hs
    exact h.inside t ht

theorem build_stacked (stack : List (ProtoId × Option Bytes)) :
    Stacked (build_with R stack).spans (build_with R stack).buf := by
  have hfold : ∀ st, Ends st → Ends (stack.foldl (build_layer R) st) := by
    induction stack with
    | nil => exact fun _ h => h
    | cons layer stack ih => exact fun st h => ih _ (build_layer_ends R h layer)
  have hempty : Ends ([], []) := ⟨⟨.nil, nofun⟩, nofun⟩
  unfold build_with
  exact stacked_refresh (hfold _ hempty).1

end Made

/-! ## What a layer's own count may change -/

/-- The octets of a header that its length setter and its group's `sync` may write: a field of the
layer that stands before any region. -/
structure Counts (d : FullDesc) (cells : Set ℕ) : Prop where
  set_hlen : ∀ hook ∈ d.set_hlen, ∀ hdr n k, k ∉ cells → (hook.run hdr n)[k]? = hdr[k]?
  sync : ∀ hook ∈ d.sync, ∀ hdr k, k ∉ cells → (hook.run hdr ())[k]? = hdr[k]?
  before : ∀ f ∈ d.fields, f.kind = .VarBytes → ∀ k ∈ cells, k < f.bit_off / 8

theorem Counts.of_none {d : FullDesc} (hset : d.set_hlen = none) (hsync : d.sync = none) :
    Counts d ∅ where
  set_hlen hook h := by
    rw [hset] at h
    cases h
  sync hook h := by
    rw [hsync] at h
    cases h
  before _ _ _ _ h := h.elim

/-- The count of each layer: IHL, Data Offset, none for the layers without a setter, and of a layer
that is not embedded here what is said of it. -/
def count_cells (count : ProtoId → Set ℕ) (p : ProtoId) : Set ℕ :=
  match p with
  | .Ipv4 => {0}
  | .Tcp => {12}
  | .Raw | .Padding | .Ether | .Dot1Q | .PppoeDisc | .Pppoe | .Ipv6 | .HopByHop | .Routing
  | .Fragment | .DestOpt | .Icmp | .Icmpv6 | .Gre | .Udp | .Dns | .Geneve | .GtpU => ∅
  | .other n => if (counted n).isSome then ∅ else count (.other n)
  | p => count p

/-- IPv4 counts in its first octet. -/
theorem ipv4_set_hlen_getElem? (hdr : Bytes) (len : ℕ) {k : ℕ} (hk : k ≠ 0) :
    (ipv4_set_hlen hdr len)[k]? = hdr[k]? := by
  cases hdr with
  | nil => rfl
  | cons o rest =>
    obtain ⟨m, rfl⟩ := Nat.exists_eq_succ_of_ne_zero hk
    rfl

/-- TCP in its thirteenth. -/
theorem tcp_set_hlen_getElem? (hdr : Bytes) (len : ℕ) {k : ℕ} (hk : k ≠ 12) :
    (tcp_set_hlen hdr len)[k]? = hdr[k]? := by
  unfold tcp_set_hlen
  split
  · rw [List.getElem?_modify_ne]
    exact Ne.symm hk
  · rfl

/-- The options of an IPv4 or a TCP header stand behind its fixed part. -/
theorem options_at_twenty : (∀ f ∈ ipv4_fields, f.kind = .VarBytes → f.bit_off / 8 = 20) ∧
    ∀ f ∈ tcp_fields, f.kind = .VarBytes → f.bit_off / 8 = 20 := by
  decide

/-- The octets in which a header's length is counted, for every layer of the registry. -/
theorem counts_desc (R : Registry) {count : ProtoId → Set ℕ}
    (hother : ∀ p, Counts (R.other p) (count p)) (p : ProtoId) :
    Counts (R.desc p) (count_cells count p) := by
  -- By the protocol; only four kinds of layer count their header anywhere.
  cases p with
  | Ipv4 =>
    refine ⟨?_, by rintro _ ⟨⟩, ?_⟩
    · rintro hook ⟨⟩ hdr n k hk
      exact ipv4_set_hlen_getElem? hdr n hk
    · rintro f hf hkind k rfl
      rw [options_at_twenty.1 f hf hkind]
      omega
  | Tcp =>
    refine ⟨?_, by rintro _ ⟨⟩, ?_⟩
    · rintro hook ⟨⟩ hdr n k hk
      exact tcp_set_hlen_getElem? hdr n hk
    · rintro f hf hkind k rfl
      rw [options_at_twenty.2 f hf hkind]
      omega
  | other n =>
    cases hcounted : counted n with
    | some c =>
      have hdesc : R.desc (.other n) = c.desc := by simp only [Registry.desc, hcounted]
      have hcells : count_cells count (.other n) = ∅ := by simp [count_cells, hcounted]
      rw [hdesc, hcells]
      exact Counts.of_none rfl rfl
    | none =>
      have hdesc : R.desc (.other n) = R.other (.other n) := by simp only [Registry.desc, hcounted]
      have hcells : count_cells count (.other n) = count (.other n) := by simp [count_cells, hcounted]
      rw [hdesc, hcells]
      exact hother (.other n)
  -- These are the registry's own to describe.
  | Llc => exact hother _
  | Arp => exact hother _
  | Mpls => exact hother _
  | Ppp => exact hother _
  | Http => exact hother _
  | Tls => exact hother _
  | Bootp => exact hother _
  | Vxlan => exact hother _
  | ErspanII => exact hother _
  | ErspanIII => exact hother _
  | _ => exact Counts.of_none rfl rfl

/-- The header of a layer told how long it is, and its group synced. -/
def retold (d : FullDesc) (a b hlen : ℕ) (buf : Bytes) : Bytes :=
  let buf := match d.set_hlen with
    | some setter => edit_slice buf a b fun hdr => setter.run hdr hlen
    | none => buf
  match d.sync with
  | some sync => edit_slice buf a b fun hdr => sync.run hdr ()
  | none => buf

/-- An edit of a header that keeps some of its octets keeps them in the buffer. -/
theorem edit_slice_getElem? {buf : Bytes} {a b : ℕ} {f : Bytes → Bytes} {cells : Set ℕ} (hab : a ≤ b)
    (hb : b ≤ buf.length) (hlen : ∀ hdr, (f hdr).length = hdr.length)
    (hf : ∀ hdr k, k ∉ cells → (f hdr)[k]? = hdr[k]?) {n : ℕ} (hn : ∀ k ∈ cells, n ≠ a + k) :
    (edit_slice buf a b f)[n]? = buf[n]? := by
  have hsize : (f (slice buf a b)).length = b - a := (hlen _).trans (length_slice hb)
  unfold edit_slice
  rw [put_getElem? (by omega), hsize]
  split
  · rename_i hrange
    have hcell : n - a ∉ cells := fun h => hn (n - a) h (by omega)
    rw [hf _ _ hcell, slice_getElem?, if_pos (by omega), Nat.add_sub_cancel' hrange.1]
  · rfl

/-- Retelling the length writes those octets of the header and no other. -/
theorem retold_spec {d : FullDesc} {cells : Set ℕ} (h : Counts d cells) {buf : Bytes} {a b : ℕ}
    (hlen : ℕ) (hab : a ≤ b) (hb : b ≤ buf.length) :
    (retold d a b hlen buf).length = buf.length ∧
      ∀ n, (∀ k ∈ cells, n ≠ a + k) → (retold d a b hlen buf)[n]? = buf[n]? := by
  -- Each of the two hooks rewrites octets of the header and keeps its length.
  have hset : ∀ hook ∈ d.set_hlen,
      (edit_slice buf a b fun hdr => hook.run hdr hlen).length = buf.length ∧
      ∀ n, (∀ k ∈ cells, n ≠ a + k) →
        (edit_slice buf a b fun hdr => hook.run hdr hlen)[n]? = buf[n]? := by
    intro hook hhook
    refine ⟨length_edit_slice hab hb (hook.length_run _ _), ?_⟩
    intro n hn
    exact edit_slice_getElem? hab hb (fun hdr => hook.length_run hdr hlen)
      (fun hdr k hk => h.set_hlen hook hhook hdr hlen k hk) hn
  have hsync : ∀ hook ∈ d.sync, ∀ buf : Bytes, b ≤ buf.length →
      (edit_slice buf a b fun hdr => hook.run hdr ()).length = buf.length ∧
      ∀ n, (∀ k ∈ cells, n ≠ a + k) →
        (edit_slice buf a b fun hdr => hook.run hdr ())[n]? = buf[n]? := by
    intro hook hhook buf hb
    refine ⟨length_edit_slice hab hb (hook.length_run _ _), ?_⟩
    intro n hn
    exact edit_slice_getElem? hab hb (fun hdr => hook.length_run hdr ())
      (fun hdr k hk => h.sync hook hhook hdr k hk) hn
  unfold retold
  dsimp only
  -- Neither, either one, or both in a row.
  cases hs : d.set_hlen with
  | none =>
    cases hy : d.sync with
    | none => exact ⟨rfl, fun _ _ => rfl⟩
    | some sync => exact hsync sync hy buf hb
  | some setter =>
    obtain ⟨hlen₁, hframe₁⟩ := hset setter hs
    cases hy : d.sync with
    | none => exact ⟨hlen₁, hframe₁⟩
    | some sync =>
      obtain ⟨hlen₂, hframe₂⟩ := hsync sync hy _ (hlen₁.symm ▸ hb)
      exact ⟨hlen₂.trans hlen₁, fun n hn => (hframe₂ n hn).trans (hframe₁ n hn)⟩

/-! ## Writing a region -/

section Region

variable (R : Registry) (pkt : Packet) (i : ℕ) (s : LayerSpan) (f : FieldDesc) (val : Bytes)

/-- What stands in a region after it is written: the value, zeros up to a word where the header is
counted in words, and what the stacked layer appended. -/
def region : Bytes :=
  val ++ List.replicate (if (R.desc s.proto).pads_options then (4 - val.length % 4) % 4 else 0) 0 ++
    kept_tail R pkt i s (s.off + f.bit_off / 8) (s.off + s.hlen)

/-- The header length that goes with it. -/
def new_hlen : ℕ := f.bit_off / 8 + (region R pkt i s f val).length

/-- The octets with the region in place, before the layer is told how long it is. -/
def spliced : Bytes :=
  pkt.buf.take (s.off + f.bit_off / 8) ++ region R pkt i s f val ++ pkt.buf.drop (s.off + s.hlen)

/-- The layers with it in place. -/
def shifted : List LayerSpan :=
  pkt.spans.take i ++ { s with hlen := new_hlen R pkt i s f val } ::
    (pkt.spans.drop (i + 1)).map fun t =>
      { t with off := t.off + (region R pkt i s f val).length - (s.hlen - f.bit_off / 8) }

variable {R pkt i s f val}

theorem length_spliced (hin : s.Inside pkt.buf) (hreach : f.bit_off / 8 ≤ s.hlen) :
    (spliced R pkt i s f val).length = pkt.buf.length - s.hlen + new_hlen R pkt i s f val := by
  have hinside : s.off + s.hlen ≤ pkt.buf.length := hin
  unfold spliced new_hlen
  simp only [List.length_append, List.length_take, List.length_drop]
  omega

/-- `set_bytes` of a region its header reaches. -/
theorem set_bytes_eq {name : String} (hs : pkt.spans[i]? = some s)
    (hf : pkt.active_field R i name = some f) (hkind : f.kind = .VarBytes) (hin : s.Inside pkt.buf)
    (hreach : f.bit_off / 8 ≤ s.hlen) :
    set_bytes R pkt i name val = some (refresh_totals { pkt with
      buf := retold (R.desc s.proto) s.off (s.off + new_hlen R pkt i s f val)
        (new_hlen R pkt i s f val) (spliced R pkt i s f val)
      spans := shifted R pkt i s f val, dirty := ALL_DIRTY, resized := true }) := by
  -- The layer is inside the buffer, so none of the source's clamps does anything.
  have hinside : s.off + s.hlen ≤ pkt.buf.length := hin
  have hend : min (s.off + s.hlen) pkt.buf.length = s.off + s.hlen := Nat.min_eq_left hinside
  have hstart : min (s.off + f.bit_off / 8) pkt.buf.length = s.off + f.bit_off / 8 := by omega
  have hpos : min (s.off + f.bit_off / 8) (s.off + s.hlen) = s.off + f.bit_off / 8 := by omega
  have hold : s.off + s.hlen - (s.off + f.bit_off / 8) = s.hlen - f.bit_off / 8 := by omega
  have hnew : s.off + f.bit_off / 8 + (region R pkt i s f val).length - s.off =
      new_hlen R pkt i s f val := by
    unfold new_hlen
    omega
  have hlen : (spliced R pkt i s f val).length = _ := length_spliced hin hreach
  have hrange : LayerSpan.hdr_range { s with hlen := new_hlen R pkt i s f val }
      (spliced R pkt i s f val).length = (s.off, s.off + new_hlen R pkt i s f val) := by
    unfold LayerSpan.hdr_range
    dsimp only
    rw [Nat.min_eq_left (show s.off ≤ _ by omega), Nat.min_eq_left (show _ ≤ _ by omega)]
  unfold set_bytes
  rw [hs, hf]
  dsimp only
  rw [if_pos hkind, hstart]
  unfold replace_region
  dsimp only
  rw [hend, hpos, hold]
  -- With the clamps gone the two sides are the same packet.
  show some (refresh_totals { pkt with
    buf := retold (R.desc s.proto)
      (LayerSpan.hdr_range
        { s with hlen := s.off + f.bit_off / 8 + (region R pkt i s f val).length - s.off }
        (spliced R pkt i s f val).length).1
      (LayerSpan.hdr_range
        { s with hlen := s.off + f.bit_off / 8 + (region R pkt i s f val).length - s.off }
        (spliced R pkt i s f val).length).2
      (s.off + f.bit_off / 8 + (region R pkt i s f val).length - s.off) (spliced R pkt i s f val)
    spans := pkt.spans.take i ++
      { s with hlen := s.off + f.bit_off / 8 + (region R pkt i s f val).length - s.off } ::
        (pkt.spans.drop (i + 1)).map fun t =>
          { t with off := t.off + (region R pkt i s f val).length - (s.hlen - f.bit_off / 8) }
    dirty := ALL_DIRTY, resized := true }) = _
  rw [hnew, hrange]
  rfl

/-- What a write leaves of a packet: everything before the region but the layer's own count,
everything behind it, and the layers, those behind moved by as much as the header grew. -/
structure Rewritten (R : Registry) (pkt pkt' : Packet) (i : ℕ) (s : LayerSpan) (f : FieldDesc)
    (val : Bytes) (cells : Set ℕ) : Prop where
  length : pkt'.buf.length + s.hlen = pkt.buf.length + new_hlen R pkt i s f val
  before : ∀ n, n < s.off + f.bit_off / 8 → (∀ k ∈ cells, n ≠ s.off + k) → pkt'.buf[n]? = pkt.buf[n]?
  behind : pkt'.buf.drop (s.off + new_hlen R pkt i s f val) = pkt.buf.drop (s.off + s.hlen)
  earlier : ∀ j, j < i → pkt'.spans[j]?.map LayerSpan.place = pkt.spans[j]?.map LayerSpan.place
  itself : pkt'.spans[i]?.map LayerSpan.place = some (s.proto, s.off, new_hlen R pkt i s f val)
  later : ∀ j, i < j → pkt'.spans[j]?.map LayerSpan.place =
    pkt.spans[j]?.map fun t => (t.proto, t.off + new_hlen R pkt i s f val - s.hlen, t.hlen)
  headers : ∀ j, i < j → header pkt' j = header pkt j
  field : (header pkt' i).drop (f.bit_off / 8) = region R pkt i s f val
  marked : pkt'.dirty = ALL_DIRTY ∧ pkt'.resized = true ∧ pkt'.pinned = pkt.pinned

theorem slice_drop (buf : Bytes) (x a b : ℕ) : slice buf (x + a) (x + b) = slice (buf.drop x) a b := by
  unfold slice
  rw [← List.drop_drop, List.drop_take, Nat.add_sub_cancel_left]

theorem LayerSpan.header_eq {s : LayerSpan} {buf : Bytes} (hin : s.Inside buf) :
    s.header buf = slice buf s.off (s.off + s.hlen) := by
  have hinside : s.off + s.hlen ≤ buf.length := hin
  unfold LayerSpan.header LayerSpan.hdr_range
  dsimp only
  rw [Nat.min_eq_left (show s.off ≤ buf.length by omega), Nat.min_eq_left hinside]

theorem header_of_place {pkt : Packet} {j : ℕ} {proto : ProtoId} {off hlen : ℕ}
    (h : pkt.spans[j]?.map LayerSpan.place = some (proto, off, hlen))
    (hin : off + hlen ≤ pkt.buf.length) :
    header pkt j = slice pkt.buf off (off + hlen) := by
  obtain ⟨t, ht, hplace⟩ := Option.map_eq_some_iff.1 h
  obtain ⟨_, rfl, rfl⟩ : t.proto = proto ∧ t.off = off ∧ t.hlen = hlen := by
    simpa [LayerSpan.place] using hplace
  unfold header
  rw [ht]
  exact LayerSpan.header_eq hin

/-- The layers of a packet with a region written, their totals aside. -/
theorem place_shifted (hi : i < pkt.spans.length) (hreach : f.bit_off / 8 ≤ s.hlen)
    (hbehind : ∀ j t, i < j → pkt.spans[j]? = some t → s.off + s.hlen ≤ t.off) (j : ℕ) :
    (shifted R pkt i s f val)[j]?.map LayerSpan.place =
      if j < i then pkt.spans[j]?.map LayerSpan.place
      else if j = i then some (s.proto, s.off, new_hlen R pkt i s f val)
      else pkt.spans[j]?.map fun t => (t.proto, t.off + new_hlen R pkt i s f val - s.hlen, t.hlen) := by
  have htake : (pkt.spans.take i).length = i := List.length_take_of_le (Nat.le_of_lt hi)
  unfold shifted
  split
  · rename_i hj
    rw [List.getElem?_append_left (by omega), List.getElem?_take_of_lt hj]
  -- At the layer itself, or behind it, where every offset moves by the same amount.
  · split
    · rename_i hj
      subst hj
      rw [List.getElem?_append_right (by omega), htake, Nat.sub_self]
      rfl
    · obtain ⟨m, rfl⟩ : ∃ m, j = i + 1 + m := ⟨j - (i + 1), by omega⟩
      have hback : i + 1 + m - i = m + 1 := by omega
      rw [List.getElem?_append_right (by omega), htake, hback, List.getElem?_cons_succ,
        List.getElem?_map, List.getElem?_drop]
      cases ht : pkt.spans[i + 1 + m]? with
      | none => rfl
      | some t =>
        have hle := hbehind _ t (by omega) ht
        have hoff : t.off + (region R pkt i s f val).length - (s.hlen - f.bit_off / 8) =
            t.off + new_hlen R pkt i s f val - s.hlen := by
          unfold new_hlen
          omega
        simp only [Option.map_some, LayerSpan.place, hoff]

/-- Refreshing keeps every place. -/
theorem place_refresh (pkt : Packet) (j : ℕ) :
    (refresh_totals pkt).spans[j]?.map LayerSpan.place = pkt.spans[j]?.map LayerSpan.place := by
  unfold refresh_totals
  rw [List.getElem?_map, Option.map_map]
  rfl

/-- **Writing a region moves what is behind it and keeps the rest.** -/
theorem set_bytes_rewritten {cells : Set ℕ} (hcounts : Counts (R.desc s.proto) cells)
    (hstacked : Stacked pkt.spans pkt.buf) {name : String} (hs : pkt.spans[i]? = some s)
    (hf : pkt.active_field R i name = some f) (hfield : f ∈ (R.desc s.proto).fields)
    (hkind : f.kind = .VarBytes) (hreach : f.bit_off / 8 ≤ s.hlen) :
    ∃ pkt', set_bytes R pkt i name val = some pkt' ∧ Rewritten R pkt pkt' i s f val cells := by
  have hin := hstacked.inside s (List.mem_of_getElem? hs)
  have hinside : s.off + s.hlen ≤ pkt.buf.length := hin
  refine ⟨_, set_bytes_eq hs hf hkind hin hreach, ?_⟩
  obtain ⟨hi, -⟩ := List.getElem?_eq_some_iff.1 hs
  have hlen : (spliced R pkt i s f val).length = _ := length_spliced hin hreach
  have hnew : new_hlen R pkt i s f val = f.bit_off / 8 + (region R pkt i s f val).length := rfl
  obtain ⟨hlength, hframe⟩ := retold_spec hcounts (new_hlen R pkt i s f val)
    (Nat.le_add_right s.off (new_hlen R pkt i s f val))
    (show s.off + new_hlen R pkt i s f val ≤ (spliced R pkt i s f val).length by omega)
  have hcells : ∀ n, s.off + f.bit_off / 8 ≤ n → ∀ k ∈ cells, n ≠ s.off + k := by
    intro n hn k hk
    have := hcounts.before f hfield hkind k hk
    omega
  have hbehind : ∀ j t, i < j → pkt.spans[j]? = some t → s.off + s.hlen ≤ t.off :=
    fun j t hj ht => hstacked.le hj hs ht
  obtain ⟨buf, hbuf⟩ : ∃ buf, buf = retold (R.desc s.proto) s.off (s.off + new_hlen R pkt i s f val)
    (new_hlen R pkt i s f val) (spliced R pkt i s f val) := ⟨_, rfl⟩
  obtain ⟨pkt', hpkt⟩ : ∃ pkt', pkt' = refresh_totals { pkt with
    buf, spans := shifted R pkt i s f val, dirty := ALL_DIRTY, resized := true } := ⟨_, rfl⟩
  rw [← hbuf] at hlength hframe ⊢
  rw [← hpkt]
  have hsame : pkt'.buf = buf := by
    rw [hpkt]
    rfl
  have hplace : ∀ j, pkt'.spans[j]?.map LayerSpan.place =
      if j < i then pkt.spans[j]?.map LayerSpan.place
      else if j = i then some (s.proto, s.off, new_hlen R pkt i s f val)
      else pkt.spans[j]?.map fun t => (t.proto, t.off + new_hlen R pkt i s f val - s.hlen, t.hlen) := by
    intro j
    rw [hpkt, place_refresh]
    exact place_shifted hi hreach hbehind j
  have hdrop : buf.drop (s.off + new_hlen R pkt i s f val) = pkt.buf.drop (s.off + s.hlen) := by
    have hspliced : (spliced R pkt i s f val).drop (s.off + new_hlen R pkt i s f val) =
        pkt.buf.drop (s.off + s.hlen) := by
      apply List.drop_left'
      rw [List.length_append, List.length_take]
      omega
    rw [← hspliced]
    apply List.ext_getElem?
    intro k
    rw [List.getElem?_drop, List.getElem?_drop, hframe _ (hcells _ (by omega))]
  have hitself : pkt'.spans[i]?.map LayerSpan.place =
      some (s.proto, s.off, new_hlen R pkt i s f val) := by
    rw [hplace, if_neg (Nat.lt_irrefl i), if_pos rfl]
  have hlater : ∀ j, i < j → pkt'.spans[j]?.map LayerSpan.place =
      pkt.spans[j]?.map fun t => (t.proto, t.off + new_hlen R pkt i s f val - s.hlen, t.hlen) := by
    intro j hj
    rw [hplace, if_neg (by omega), if_neg (by omega)]
  have hmarked : pkt'.dirty = ALL_DIRTY ∧ pkt'.resized = true ∧ pkt'.pinned = pkt.pinned := by
    rw [hpkt]
    exact ⟨rfl, rfl, rfl⟩
  refine ⟨?_, ?_, ?_, ?_, hitself, hlater, ?_, ?_, hmarked⟩
  · rw [hsame]
    omega
  · intro n hn hkeep
    rw [hsame, hframe n hkeep]
    unfold spliced
    rw [List.append_assoc, List.getElem?_append_left, List.getElem?_take_of_lt hn]
    rw [List.length_take]
    omega
  · rw [hsame]
    exact hdrop
  · intro j hj
    rw [hplace, if_pos hj]
  · -- a header behind the region is as far behind the new end of it as it was behind the old one
    intro j hj
    have hj' := hlater j hj
    cases ht : pkt.spans[j]? with
    | none =>
      rw [ht] at hj'
      have hnone := Option.map_eq_none_iff.1 hj'
      unfold header
      rw [hnone, ht]
    | some t =>
      have hle := hbehind j t hj ht
      have htin : t.off + t.hlen ≤ pkt.buf.length := hstacked.inside t (List.mem_of_getElem? ht)
      rw [ht] at hj'
      have hold : header pkt j = slice pkt.buf t.off (t.off + t.hlen) := by
        unfold header
        rw [ht]
        exact LayerSpan.header_eq htin
      rw [header_of_place hj' (by rw [hsame]; omega), hold, hsame]
      calc slice buf (t.off + new_hlen R pkt i s f val - s.hlen)
            (t.off + new_hlen R pkt i s f val - s.hlen + t.hlen)
          = slice (buf.drop (s.off + new_hlen R pkt i s f val)) (t.off - (s.off + s.hlen))
              (t.off - (s.off + s.hlen) + t.hlen) := by
            rw [← slice_drop]
            congr 1 <;> omega
        _ = slice (pkt.buf.drop (s.off + s.hlen)) (t.off - (s.off + s.hlen))
              (t.off - (s.off + s.hlen) + t.hlen) := by rw [hdrop]
        _ = slice pkt.buf t.off (t.off + t.hlen) := by
            rw [← slice_drop]
            congr 1 <;> omega
  · have hcut : slice buf (s.off + f.bit_off / 8) (s.off + new_hlen R pkt i s f val) =
        slice (spliced R pkt i s f val) (s.off + f.bit_off / 8) (s.off + new_hlen R pkt i s f val) :=
      slice_congr fun n hn _ => hframe n (hcells n hn)
    have hfront : (pkt.buf.take (s.off + f.bit_off / 8)).length = s.off + f.bit_off / 8 :=
      List.length_take_of_le (by omega)
    rw [header_of_place hitself (by rw [hsame]; omega), hsame]
    unfold slice at hcut ⊢
    rw [List.drop_drop, hcut]
    unfold spliced
    rw [List.take_left' (by rw [List.length_append, hfront, hnew, Nat.add_assoc]),
      List.drop_left' hfront]

/-- After a rewrite the spans are stacked again: the layers in front are untouched, the layer itself
is rebuilt over the same room, and those behind it moved with their octets. -/
theorem Rewritten.stacked {pkt' : Packet} {cells : Set ℕ} (h : Rewritten R pkt pkt' i s f val cells)
    (hs : pkt.spans[i]? = some s) (hstacked : Stacked pkt.spans pkt.buf) :
    Stacked pkt'.spans pkt'.buf := by
  have hin : s.off + s.hlen ≤ pkt.buf.length := hstacked.inside s (List.mem_of_getElem? hs)
  have hlength := h.length
  -- where a layer of the new packet was in the old one
  have hfrom : ∀ j u, pkt'.spans[j]? = some u →
      j < i ∧ (∃ t, pkt.spans[j]? = some t ∧ u.off = t.off ∧ u.hlen = t.hlen) ∨
      j = i ∧ u.off = s.off ∧ u.hlen = new_hlen R pkt i s f val ∨
      i < j ∧ ∃ t, pkt.spans[j]? = some t ∧ u.off = t.off + new_hlen R pkt i s f val - s.hlen ∧
        u.hlen = t.hlen := by
    intro j u hu
    rcases Nat.lt_trichotomy j i with hj | hj | hj
    · have hplace := h.earlier j hj
      rw [hu] at hplace
      obtain ⟨t, ht, hsame⟩ := Option.map_eq_some_iff.1 hplace.symm
      obtain ⟨-, hoff, hhlen⟩ : t.proto = u.proto ∧ t.off = u.off ∧ t.hlen = u.hlen := by
        simpa [LayerSpan.place] using hsame
      exact .inl ⟨hj, t, ht, hoff.symm, hhlen.symm⟩
    · subst hj
      have hplace := h.itself
      rw [hu] at hplace
      obtain ⟨-, hoff, hhlen⟩ : u.proto = s.proto ∧ u.off = s.off ∧ u.hlen = _ := by
        simpa [LayerSpan.place] using hplace
      exact .inr (.inl ⟨rfl, hoff, hhlen⟩)
    · have hplace := h.later j hj
      rw [hu] at hplace
      obtain ⟨t, ht, hsame⟩ := Option.map_eq_some_iff.1 hplace.symm
      obtain ⟨-, hoff, hhlen⟩ : t.proto = u.proto ∧ t.off + _ - s.hlen = u.off ∧ t.hlen = u.hlen := by
        simpa [LayerSpan.place] using hsame
      exact .inr (.inr ⟨hj, t, ht, hoff.symm, hhlen.symm⟩)
  constructor
  · refine List.pairwise_iff_getElem.2 ?_
    intro j k hj hk hjk
    have hu := hfrom j _ (List.getElem?_eq_getElem hj)
    have hv := hfrom k _ (List.getElem?_eq_getElem hk)
    rcases hu with ⟨hji, t, ht, hoff, hhlen⟩ | ⟨hji, hoff, hhlen⟩ | ⟨hij, t, ht, hoff, hhlen⟩
    · rw [hoff, hhlen]
      rcases hv with ⟨hki, v, hv, hoff', -⟩ | ⟨hki, hoff', -⟩ | ⟨hik, v, hv, hoff', -⟩
      · rw [hoff']
        exact hstacked.le hjk ht hv
      · rw [hoff']
        exact hstacked.le hji ht hs
      · have hle := hstacked.le hji ht hs
        have hle' := hstacked.le hik hs hv
        omega
    · rcases hv with ⟨hki, -⟩ | ⟨hki, -⟩ | ⟨hik, v, hv, hoff', -⟩
      · omega
      · omega
      · have hle := hstacked.le hik hs hv
        omega
    · rcases hv with ⟨hki, -⟩ | ⟨hki, -⟩ | ⟨hik, v, hv, hoff', -⟩
      · omega
      · omega
      · have hle := hstacked.le hij hs ht
        have hle' := hstacked.le hjk ht hv
        omega
  · intro u hu
    obtain ⟨j, hj, rfl⟩ := List.mem_iff_getElem.1 hu
    unfold LayerSpan.Inside
    rcases hfrom j _ (List.getElem?_eq_getElem hj) with
      ⟨hji, t, ht, hoff, hhlen⟩ | ⟨hji, hoff, hhlen⟩ | ⟨hij, t, ht, hoff, hhlen⟩
    · have hle := hstacked.le hji ht hs
      omega
    · omega
    · have hle := hstacked.le hij hs ht
      have htin : t.off + t.hlen ≤ pkt.buf.length := hstacked.inside t (List.mem_of_getElem? ht)
      omega

end Region

end Wiry.Packet
