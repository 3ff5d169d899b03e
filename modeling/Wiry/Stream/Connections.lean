/-
Whose octets a stream holds. `inspect` keys a segment by the first IP header of
its frame, `enclosing_addrs` by the nearest one around it; where the two differ,
a tunnelled connection is filed under the tunnel's endpoints.
-/
import Wiry.Stream.Sources
import Wiry.Stream.FirstWriter

set_option autoImplicit false
set_option linter.dupNamespace false

namespace Wiry.Stream

open Wiry.Packet

/-! ## The two headers of a frame -/

/-- The version and addresses of the first IP header of a frame. -/
def Push.outermost_addrs (L : Layers) (p : Push) : Option (Bytes × Bytes × Bool) :=
  (first_ip (dissect_spans L p.buf p.link)).bind (ip_addrs p.buf)

/-- The version and addresses of the IP header nearest around its first TCP layer. -/
def Push.nearest_addrs (L : Layers) (p : Push) : Option (Bytes × Bytes × Bool) :=
  ((dissect_spans L p.buf p.link).findIdx? (·.proto = .Tcp)).bind
    (enclosing_addrs p.buf (dissect_spans L p.buf p.link))

/-- The endpoints a frame's TCP segment names: its nearest IP header and its own ports. -/
def Push.own (L : Layers) (p : Push) : Option Endpoints := do
  let tcp ← first_tcp (dissect_spans L p.buf p.link)
  let (src, dst, v6) ← p.nearest_addrs L
  let hdr := p.buf.drop tcp.off
  pure ⟨wide src, wide dst, be16 hdr 0, be16 hdr 2, v6⟩

/-- The two headers name the same addresses, or the frame brings no octets. -/
def Push.Agrees (L : Layers) (p : Push) : Prop :=
  ∀ s, p.segment L = some s → p.data s ≠ [] → p.outermost_addrs L = p.nearest_addrs L

/-- An octet of a stream comes from a frame whose segment names the direction's endpoints. -/
def OwnOctets (L : Layers) (ps : List Push) (st : Stream) : Prop :=
  ∀ d o x, (st.halves d).data[o]? = some x →
    ∃ p ∈ ps, (st.halves d).packet_at o = some p.pos ∧ p.own L = some (st.endpoints d) ∧
      ∃ s, p.segment L = some s ∧ x ∈ p.data s

/-- Connections never mix in what `finish` hands back. -/
def NeverMixed (L : Layers) (ps : List Push) : Prop :=
  ∀ keys, keys.Perm (pushes L ps).live.keys →
    ∀ st ∈ (pushes L ps).finish keys, OwnOctets L ps st

/-! ## What `inspect` reads -/

theorem wide_inj {a b : Bytes} (hlen : a.length = b.length) (ha : a.length ≤ 16)
    (h : wide a = wide b) : a = b := by
  have hoct : (wide a).octets = (wide b).octets := congrArg Addr.octets h
  unfold wide at hoct
  dsimp only at hoct
  rw [List.take_of_length_le ha, List.take_of_length_le (by omega), hlen] at hoct
  exact List.append_cancel_right hoct

theorem length_slice {buf : Bytes} {a b : ℕ} (hb : b ≤ buf.length) :
    (slice buf a b).length = b - a := by
  simp [slice, Nat.min_eq_left hb]

/-- An IP header's addresses are four octets each, or sixteen. -/
theorem length_ip_addrs {buf : Bytes} {s : LayerSpan} {src dst : Bytes} {v6 : Bool}
    (h : ip_addrs buf s = some (src, dst, v6)) :
    src.length = (if v6 then 16 else 4) ∧ dst.length = (if v6 then 16 else 4) := by
  unfold ip_addrs at h
  split at h
  · split at h
    · obtain ⟨rfl, rfl, rfl⟩ : _ = src ∧ _ = dst ∧ false = v6 := by simpa using h
      refine ⟨?_, ?_⟩
      · rw [length_slice (by omega)]
        simp
      · rw [length_slice (by omega)]
        simp
    · exact absurd h nofun
  · split at h
    · obtain ⟨rfl, rfl, rfl⟩ : _ = src ∧ _ = dst ∧ true = v6 := by simpa using h
      refine ⟨?_, ?_⟩
      · rw [length_slice (by omega)]
        simp
      · rw [length_slice (by omega)]
        simp
    · exact absurd h nofun
  · exact absurd h nofun

/-- The addresses `inspect` reads at an IP layer are the layer's. -/
theorem addr_pair_eq {buf : Bytes} {ip : LayerSpan} (hip : ip.proto = .Ipv4 ∨ ip.proto = .Ipv6)
    {src dst : Addr} (h : addr_pair buf ip = some (src, dst)) :
    ∃ a b, ip_addrs buf ip = some (a, b, decide (ip.proto = .Ipv6)) ∧ src = wide a ∧
      dst = wide b := by
  unfold addr_pair get_range at h
  unfold ip_addrs
  -- Each family has its own offsets, and both readers ask for the whole header.
  rcases hip with hip | hip
  · rw [hip] at h ⊢
    simp only [reduceCtorEq, if_false] at h
    by_cases hlen : ip.off + 20 ≤ buf.length
    · have h16 : ip.off + 12 ≤ ip.off + 16 ∧ ip.off + 16 ≤ buf.length := by omega
      have h20 : ip.off + 16 ≤ ip.off + 20 ∧ ip.off + 20 ≤ buf.length := by omega
      rw [if_pos h16, if_pos h20] at h
      obtain ⟨rfl, rfl⟩ : _ = src ∧ _ = dst := by simpa using h
      exact ⟨_, _, if_pos hlen, rfl, rfl⟩
    · have h20 : ¬ (ip.off + 16 ≤ ip.off + 20 ∧ ip.off + 20 ≤ buf.length) := by omega
      rw [if_neg h20] at h
      simp at h
  · rw [hip] at h ⊢
    simp only [if_true] at h
    by_cases hlen : ip.off + 40 ≤ buf.length
    · have h24 : ip.off + 8 ≤ ip.off + 24 ∧ ip.off + 24 ≤ buf.length := by omega
      have h40 : ip.off + 24 ≤ ip.off + 40 ∧ ip.off + 40 ≤ buf.length := by omega
      rw [if_pos h24, if_pos h40] at h
      obtain ⟨rfl, rfl⟩ : _ = src ∧ _ = dst := by simpa using h
      exact ⟨_, _, if_pos hlen, rfl, rfl⟩
    · have h40 : ¬ (ip.off + 24 ≤ ip.off + 40 ∧ ip.off + 40 ≤ buf.length) := by omega
      rw [if_neg h40] at h
      simp at h

/-- A segment's endpoints are the first IP header's addresses with the TCP header's ports. -/
theorem segment_endpoints {L : Layers} {p : Push} {s : Segment} (hs : p.segment L = some s) :
    ∃ tcp a b v6, first_tcp (dissect_spans L p.buf p.link) = some tcp ∧
      p.outermost_addrs L = some (a, b, v6) ∧
      s.endpoints = ⟨wide a, wide b, be16 (p.buf.drop tcp.off) 0, be16 (p.buf.drop tcp.off) 2, v6⟩ := by
  obtain ⟨tcp, ip, src, dst, htcp, hip, haddr, rfl⟩ := inspect_spec hs
  have hproto : ip.proto = .Ipv4 ∨ ip.proto = .Ipv6 := by
    have hfound := List.find?_some hip
    simpa using hfound
  obtain ⟨a, b, hab, rfl, rfl⟩ := addr_pair_eq hproto haddr
  refine ⟨tcp, a, b, decide (ip.proto = .Ipv6), htcp, ?_, rfl⟩
  unfold Push.outermost_addrs
  rw [hip]
  exact hab

theorem nearest_length {L : Layers} {p : Push} {a b : Bytes} {v6 : Bool}
    (h : p.nearest_addrs L = some (a, b, v6)) :
    a.length = (if v6 then 16 else 4) ∧ b.length = (if v6 then 16 else 4) := by
  unfold Push.nearest_addrs at h
  obtain ⟨i, -, hi⟩ := Option.bind_eq_some_iff.1 h
  obtain ⟨s, -, hs⟩ := List.exists_of_findSome?_eq_some hi
  exact length_ip_addrs hs

/-- **A frame's segment names its own connection exactly when the two headers agree.** -/
theorem own_eq_iff {L : Layers} {p : Push} {s : Segment} (hs : p.segment L = some s) :
    p.own L = some s.endpoints ↔ p.outermost_addrs L = p.nearest_addrs L := by
  obtain ⟨tcp, a, b, v6, htcp, hout, hends⟩ := segment_endpoints hs
  have hown : p.own L = (p.nearest_addrs L).bind fun e =>
      some ⟨wide e.1, wide e.2.1, be16 (p.buf.drop tcp.off) 0, be16 (p.buf.drop tcp.off) 2, e.2.2⟩ := by
    unfold Push.own
    rw [htcp]
    rfl
  rw [hown, hout, hends]
  constructor
  · intro h
    obtain ⟨⟨a', b', v6'⟩, hnear, heq⟩ := Option.bind_eq_some_iff.1 h
    obtain ⟨ha, hb, rfl⟩ : wide a' = wide a ∧ wide b' = wide b ∧ v6' = v6 := by simpa using heq
    have hlen := nearest_length hnear
    have hlen' : a.length = (if v6' then 16 else 4) ∧ b.length = (if v6' then 16 else 4) := by
      unfold Push.outermost_addrs at hout
      obtain ⟨ip, -, hip⟩ := Option.bind_eq_some_iff.1 hout
      exact length_ip_addrs hip
    have hsmall : (if v6' then 16 else 4) ≤ 16 := by split <;> omega
    rw [hnear, wide_inj (by omega) (by omega) ha, wide_inj (by omega) (by omega) hb]
  · intro h
    rw [← h]
    rfl

/-! ## Frames that agree -/

/-- An octet a direction delivers was in the payload of the arrival its packet names. -/
theorem delivered_from (as : List (Arrival UInt8)) {o : ℕ} {x : UInt8}
    (hx : (Build.reassembled as).data[o]? = some x) :
    ∃ a ∈ as, (Build.reassembled as).packet_at o = some a.pkt ∧ x ∈ a.data := by
  rcases (Build.run_accounted as).2 with ⟨s, -, hacc⟩ | ⟨-, hnil, -⟩
  · have ho : o < (Build.reassembled as).data.length := (List.getElem?_eq_some_iff.1 hx).1
    obtain ⟨pre, seg, post, hsegs, hat, hlo, hhi⟩ := Half.seg_at_of_tiles hacc.tiles ho
    have hseg : seg ∈ (Build.run as).finished.half.segs := by
      rw [hsegs]
      exact List.mem_append_right _ List.mem_cons_self
    obtain ⟨y, hy, before, a, after, rfl, hc⟩ := hacc.provenance seg hseg o hlo hhi
    have hxy : x = y := Option.some.inj (hx.symm.trans hy)
    subst hxy
    -- what the arrival carried there is one of its octets, under its packet
    unfold Build.carries at hc
    rw [Build.carried_eq] at hc
    split at hc
    · obtain ⟨z, hz, heq⟩ := Option.map_eq_some_iff.1 hc
      obtain ⟨rfl, hpkt⟩ : z = x ∧ a.pkt = seg.pkt := by simpa using heq
      have hseg_at : (Build.reassembled (before ++ a :: after)).seg_at o = some seg := hat
      refine ⟨a, by simp, ?_, List.mem_of_getElem? hz⟩
      rw [Half.packet_at, hseg_at, hpkt]
      rfl
    · cases hc
  · rw [hnil] at hx
    exact absurd hx (by simp)

/-- **Where every frame's headers agree, connections never mix.** -/
theorem neverMixed {L : Layers} {ps : List Push} (h : ∀ p ∈ ps, p.Agrees L) : NeverMixed L ps := by
  intro keys hk st hst d o x hx
  obtain ⟨k, life, hmade⟩ := finish_sourced L ps hk st hst
  rw [hmade.halves d] at hx ⊢
  obtain ⟨a, ha, hpkt, hxa⟩ := delivered_from _ hx
  obtain ⟨p, hp, s, hs, hends, rfl⟩ := hmade.mem_fed ha
  refine ⟨p, hp, hpkt, ?_, s, hs, hxa⟩
  rw [← hends, own_eq_iff hs]
  exact h p hp s hs (List.ne_nil_of_mem hxa)

/-! ## A frame alone -/

namespace Build

variable {α : Type}

/-- Appending something leaves something delivered, however little room there is. -/
theorem ne_nil_of_appended {b b' : Build α} {data : List α}
    (h : b'.half.data = b.half.data ++ data.take b.room) (hd : data ≠ []) : b'.half.data ≠ [] := by
  rw [h]
  by_cases hempty : b.half.data = []
  · have hroom : b.room = MAX_STREAM := by
      unfold room
      rw [hempty]
      rfl
    have hpos := List.length_pos_iff.2 hd
    rw [← List.length_pos_iff, hroom, hempty, List.nil_append, List.length_take]
    exact lt_min (by decide) hpos
  · exact List.append_ne_nil_of_left_ne_nil hempty _

/-- Where the first held run stands at the frontier, draining delivers some of it. -/
theorem drain_ne_nil {b : Build α} (hb : b.Sound) {ks : ℕ} {h : Held α}
    (hf : b.held.first = some (ks, h)) (hn : b.next = ks) : b.drain.half.data ≠ [] := by
  have hstep : b.drain = (b.take_front ks h).drain := by
    rw [drain]
    split
    · rename_i ks' h' hf'
      obtain ⟨rfl, rfl⟩ : ks = ks' ∧ h = h' := by simpa using hf.symm.trans hf'
      exact if_neg (by omega)
    · rename_i hf'
      exact absurd (hf.symm.trans hf') nofun
  have htaken : (b.take_front ks h).half.data ≠ [] := by
    apply ne_nil_of_appended (b := b) (take_front_data b ks h)
    rw [hn, Nat.sub_self, List.drop_zero]
    exact List.length_pos_iff.1 (hb.first_pos hf)
  rw [hstep]
  obtain ⟨rest, hrest⟩ := (advance_drain (b.take_front ks h)).data_grows
  rw [← hrest]
  exact List.append_ne_nil_of_left_ne_nil htaken _

/-- A direction that never opened hands back some of what it holds. -/
theorem finished_ne_nil {b : Build α} (hb : b.Sound) (ho : b.open_ = false) {ks : ℕ} {h : Held α}
    (hf : b.held.first = some (ks, h)) : b.finished.half.data ≠ [] := by
  obtain ⟨hsound, -, hheld, hnext, -⟩ := fix_origin_spec hb hf
  have hf' : b.fix_origin.held.first = some (ks, h) := by rw [hheld, hf]
  have hskip : b.fix_origin.skip_to ks = b.fix_origin := by
    unfold skip_to
    exact if_neg (by omega)
  have hgive : b.fix_origin.give_up_on_front = some b.fix_origin.drain := by
    unfold give_up_on_front
    rw [hf']
    dsimp only
    rw [hskip]
  have hfin : b.finished = b.fix_origin.drain.flush := by
    unfold finished
    rw [ho, if_neg (by decide), flush_of_some hgive]
  rw [hfin]
  obtain ⟨rest, hrest⟩ := (advance_flush b.fix_origin.drain).data_grows
  rw [← hrest]
  exact List.append_ne_nil_of_left_ne_nil (drain_ne_nil hsound hf' hnext) _

/-- The first arrival is read where it anchors the line. -/
theorem reads_init (f : Arrival α) : ({} : Build α).reads f = (({} : Build α).anchor f.seq).next := by
  have hanchored := (anchored_init (α := α)).reads_eq f
  have hnext : (({} : Build α).anchor f.seq).next = f.seq.toNat + 2 ^ 32 := rfl
  have hseq : UInt32.ofNat (f.seq.toNat + 2 ^ 32) = f.seq := by
    apply UInt32.toNat_inj.1
    rw [UInt32.toNat_ofNat', Nat.add_mod_right, Nat.mod_eq_of_lt f.seq.toNat_lt]
  have hdist : (({} : Build α).anchor f.seq).distance f.seq = 0 := by
    unfold distance
    rw [hnext, hseq, UInt32.sub_self]
    decide
  omega

/-- An arrival with a payload alone delivers some of it. -/
theorem reassembled_single_ne_nil {f : Arrival α} (hd : f.data ≠ []) :
    (reassembled [f]).data ≠ [] := by
  have hrun : run [f] = ({} : Build α).take f := rfl
  change (run [f]).finished.half.data ≠ []
  rw [hrun]
  have hinit : ({} : Build α).Steered := steered_init
  have hsteer : (({} : Build α).take f).Steered := hinit.take f
  have hgrows := finished_data_grows hsteer.sound
  have hfed := take_fed ({} : Build α) f
  have he := hinit.entered f
  have hreads := reads_init f
  have hempty : (({} : Build α).entered f).half.data = [] := entered_data {} f
  -- the direction is open exactly if the arrival brings a SYN, and then stands at its payload
  by_cases hs : Has f.flags SYN
  · obtain ⟨hnext, -, hopen⟩ := entered_of_syn (b := ({} : Build α)) rfl hs
    have hland : ({} : Build α).landing f = (({} : Build α).entered f).next := by
      rw [landing_of_syn hs, hnext]
    have hpos := List.length_pos_iff.2 hd
    generalize ({} : Build α).take f = b at hfed hgrows
    generalize ({} : Build α).entered f = e at *
    generalize ({} : Build α).landing f = at_ at *
    cases hfed with
    | bare hnil => exact absurd hnil hd
    | far _ ho => rw [hopen] at ho; cases ho
    | waits _ ho => rw [hopen] at ho; cases ho
    | opens _ ho => rw [hopen] at ho; cases ho
    | stale _ _ hend => omega
    | beyond _ _ hfar => omega
    | held _ _ hahead => omega
    | delivered _ _ _ _ =>
      have happ : ((e.below at_ f.data).append (f.data.drop (e.next - at_)) f.pkt).half.data ≠ [] := by
        apply ne_nil_of_appended (b := e.below at_ f.data) (append_data _ _ _)
        rw [hland, Nat.sub_self, List.drop_zero]
        exact hd
      obtain ⟨rest, hrest⟩ := (advance_drain _).data_grows.trans hgrows
      rw [← hrest]
      exact List.append_ne_nil_of_left_ne_nil happ _
  · obtain ⟨hnext, hclosed⟩ := entered_of_not_syn (b := ({} : Build α)) rfl hs
    have hland : ({} : Build α).landing f = (({} : Build α).entered f).next := by
      rw [landing_of_not_syn hs, hnext, hreads]
    have hdiff : abs_diff (({} : Build α).landing f) (({} : Build α).entered f).next = 0 := by
      rw [hland]
      unfold abs_diff
      omega
    obtain ⟨ks, h, hf⟩ := first_of_hold he.sound (({} : Build α).landing f) hd f.pkt
    have hspec := hold_spec he.sound (({} : Build α).landing f) f.data f.pkt
    generalize ({} : Build α).take f = b at hfed hgrows hsteer ⊢
    generalize ({} : Build α).entered f = e at *
    generalize ({} : Build α).landing f = at_ at *
    cases hfed with
    | bare hnil => exact absurd hnil hd
    | far _ _ hfar => omega
    | waits _ _ _ _ =>
      have hstill : (e.hold at_ f.data f.pkt).open_ = false := by rw [hspec.frame.open_, hclosed]
      exact finished_ne_nil hspec.sound hstill hf
    | opens _ _ _ _ =>
      obtain ⟨hsound, -, hheld, hat, -⟩ := fix_origin_spec hspec.sound hf
      obtain ⟨rest, hrest⟩ := hgrows
      rw [← hrest]
      apply List.append_ne_nil_of_left_ne_nil
      exact drain_ne_nil hsound (by rw [hheld, hf]) hat
    | stale _ ho => rw [hclosed] at ho; cases ho
    | beyond _ ho => rw [hclosed] at ho; cases ho
    | held _ ho => rw [hclosed] at ho; cases ho
    | delivered _ ho => rw [hclosed] at ho; cases ho

end Build

/-- What an eviction and a finish leave out: nothing that was live. -/
theorem Reassembler.Kept.handed_back {r : Reassembler} (hr : r.Kept) {k : Key} {l : Live}
    (hl : r.live.lookup k = some l) {keys : List Key} (hk : keys.Perm r.evict.live.keys) :
    ∃ e, l.stream e ∈ r.evict.finish keys := by
  obtain ⟨gone, hgone⟩ := evicts_evict hr
  have hmem : ∀ st, st ∈ (r.evict.finish_loop keys).out → st ∈ r.evict.finish keys :=
    fun st hst => (List.perm_insertionSort by_first _).symm.subset hst
  have hout := finish_loop_out hk
  by_cases hg : (k, l) ∈ gone
  · refine ⟨true, hmem _ ?_⟩
    rw [hout, hgone.out_eq]
    exact List.mem_append_left _ (List.mem_append_right _ (List.mem_map.2 ⟨(k, l), hg, rfl⟩))
  · have hstay : r.evict.live.lookup k = some l := (hgone.stays k l).2 ⟨hl, hg⟩
    refine ⟨false, hmem _ ?_⟩
    rw [hout]
    apply List.mem_append_right
    rw [List.mem_filterMap]
    refine ⟨k, hk.symm.subset ?_, by rw [hstay]; rfl⟩
    exact AList.lookup_isSome.1 (Option.isSome_of_mem hstay)

/-- A frame with a payload, pushed alone, comes back in a stream of its own. -/
theorem single_stream {L : Layers} {p : Push} {s : Segment} (hs : p.segment L = some s)
    (hd : p.data s ≠ []) {keys : List Key} (hk : keys.Perm (pushes L [p]).live.keys) :
    ∃ st ∈ (pushes L [p]).finish keys, ∃ (d : Fin 2) (o : ℕ) (x : UInt8),
      (st.halves d).data[o]? = some x ∧ st.endpoints d = s.endpoints := by
  have hpush : pushes L [p] = (({} : Reassembler).touch p.pos s (p.data s)).evict :=
    Reassembler.take_of_some {} hs
  rw [hpush] at hk ⊢
  have hkept := Reassembler.kept_init.touch p.pos s (p.data s)
  -- the one live connection, opened by the one segment
  let l := ({} : Reassembler).entry p.pos s
  have hlook : (({} : Reassembler).touch p.pos s (p.data s)).live.lookup s.key =
      some (l.fed s (p.data s) p.pos) := AList.lookup_insert _
  obtain ⟨e, hst⟩ := hkept.handed_back hlook hk
  have hends : l.endpoints (l.dir s) = s.endpoints :=
    Live.endpoints_dir (Live.keptUnder_opened (inspect_key hs) p.pos 0) (inspect_key hs)
  have hhalf : ((l.fed s (p.data s) p.pos).stream e).halves (l.dir s) =
      Build.reassembled [p.arrival s] := by
    change (Function.update l.build (l.dir s) _ (l.dir s)).finish = _
    rw [Function.update_self]
    rfl
  -- one segment with data delivers some of it
  have hne : (Build.reassembled [p.arrival s]).data ≠ [] := Build.reassembled_single_ne_nil hd
  obtain ⟨x, hx⟩ := List.exists_mem_of_ne_nil _ hne
  obtain ⟨o, ho⟩ := List.getElem?_of_mem hx
  refine ⟨_, hst, l.dir s, o, x, ?_, hends⟩
  rw [hhalf]
  exact ho

/-- **When connections never mix**: whatever is pushed from a set of frames, every octet handed
back comes from a frame whose own endpoints are the stream's, exactly if the two headers agree in
every frame of the set. -/
theorem never_mixed_iff (L : Layers) (frames : Set Push) :
    (∀ ps : List Push, (∀ p ∈ ps, p ∈ frames) → NeverMixed L ps) ↔ ∀ p ∈ frames, p.Agrees L := by
  constructor
  · intro h p hp s hs hd
    have hmixed := h [p] (fun q hq => by rw [List.mem_singleton.1 hq]; exact hp)
    obtain ⟨st, hst, d, o, x, hx, hends⟩ :=
      single_stream hs hd (List.Perm.refl (pushes L [p]).live.keys)
    obtain ⟨q, hq, -, hown, -⟩ := hmixed _ (List.Perm.refl _) st hst d o x hx
    rw [List.mem_singleton.1 hq, hends, own_eq_iff hs] at hown
    exact hown
  · intro h ps hps
    exact neverMixed fun p hp => h p (hps p hp)

/-! ## Two connections in one tunnel -/

/-- A TCP segment in an IPv4 datagram, that in another, and that in an Ethernet frame. -/
def tunnelled_frame (src dst : Bytes) (seq : ℕ) (data : Bytes) : Bytes :=
  ether_header ++ ipv4_header 4 [192, 0, 2, 1] [192, 0, 2, 2] (40 + data.length) ++
    ipv4_header 6 src dst (20 + data.length) ++ tcp_header 40000 50000 seq 0x10 ++ data

/-- Two inner connections, with the same ports, through one tunnel. -/
def one_tunnel : List Push :=
  [⟨0, tunnelled_frame [10, 0, 0, 1] [10, 0, 0, 2] 0 [0x61], .Ether⟩,
    ⟨1, tunnelled_frame [10, 9, 9, 9] [10, 0, 0, 2] 1 [0x62], .Ether⟩]

/-- Both come back in one stream. -/
theorem one_tunnel_merged : ¬ NeverMixed .core one_tunnel := by
  intro h
  have hkeys : [key_of (wide [192, 0, 2, 1]) 40000 (wide [192, 0, 2, 2]) 50000 false].Perm
      (pushes .core one_tunnel).live.keys := by decide +kernel
  have hdata : ((pushes .core one_tunnel).finish
      [key_of (wide [192, 0, 2, 1]) 40000 (wide [192, 0, 2, 2]) 50000 false]).map
        (fun st => ((st.halves 0).data, st.endpoints 0)) =
      [([0x61, 0x62], ⟨wide [192, 0, 2, 1], wide [192, 0, 2, 2], 40000, 50000, false⟩)] := by
    decide +kernel
  obtain ⟨st, hst, heq⟩ := List.exists_of_mem_map (hdata ▸ List.mem_cons_self)
  obtain ⟨hd, he⟩ := Prod.ext_iff.1 heq
  dsimp only at hd he
  obtain ⟨p, hp, -, hown, -⟩ := h _ hkeys st hst 0 0 0x61 (by rw [hd]; rfl)
  rw [he] at hown
  -- neither frame names the tunnel's endpoints as its segment's
  have hnone : ∀ p ∈ one_tunnel, p.own .core ≠
      some ⟨wide [192, 0, 2, 1], wide [192, 0, 2, 2], 40000, 50000, false⟩ := by decide +kernel
  exact hnone p hp hown

end Wiry.Stream
