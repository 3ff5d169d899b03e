/-
`app_messages` of `crates/wiry-core/src/stream.rs`: the application messages of
reassembled streams, each with the packet it starts in and `skip`, which is
meant to be what of that packet's payload runs ahead of it.

`skip` is measured from where the segment starts in the data. That is where the
packet's payload starts exactly if no octet of the payload ahead of the message
was cut off it, and then, without a SYN, the packet's sequence number and `skip`
make the sequence number of the message.
-/
import Wiry.Stream.Connections
import Wiry.Stream.Messages
import Wiry.Stream.Reframe
import Wiry.Stream.Segments
import Wiry.Stream.Wrap

set_option autoImplicit false
set_option linter.dupNamespace false

namespace Wiry.Stream

open Wiry.Packet

/-! ## Segments of a half -/

namespace Half

variable {α : Type} {h : Half α} {n o : ℕ} {seg : Seg}

theorem Tiles.mem_le {a : ℕ} {segs : List Seg} (ht : Tiles a segs n) (hs : seg ∈ segs) :
    seg.at_ + seg.len ≤ n := by
  obtain ⟨pre, post, rfl⟩ := List.mem_iff_append.1 hs
  obtain ⟨m, -, hat, -, hpost⟩ := ht.of_append
  have := hpost.length_pkts
  omega

theorem seg_at_mem (hs : h.seg_at o = some seg) : seg ∈ h.segs ∧ o < seg.at_ + seg.len := by
  unfold seg_at at hs
  split at hs
  · exact absurd hs nofun
  · obtain ⟨hget, hlt⟩ := Option.filter_eq_some_iff.1 hs
    exact ⟨List.mem_of_getElem? hget, by simpa using hlt⟩

/-- What `seg_at` finds is a segment that holds the offset. -/
theorem seg_at_spec (ht : Tiles 0 h.segs n) (hs : h.seg_at o = some seg) :
    seg ∈ h.segs ∧ seg.at_ ≤ o ∧ o < seg.at_ + seg.len := by
  obtain ⟨hmem, hhi⟩ := seg_at_mem hs
  have hle := ht.mem_le hmem
  obtain ⟨pre, seg', post, -, hat, hlo, -⟩ := seg_at_of_tiles ht (o := o) (by omega)
  obtain rfl : seg = seg' := Option.some.inj (hs.symm.trans hat)
  exact ⟨hmem, hlo, hhi⟩

/-- Every octet of a segment is of its packet. -/
theorem packet_at_of_mem (ht : Tiles 0 h.segs n) (hs : seg ∈ h.segs) (hlo : seg.at_ ≤ o)
    (hhi : o < seg.at_ + seg.len) : h.packet_at o = some seg.pkt := by
  have hle := ht.mem_le hs
  obtain ⟨pre, post, hsegs⟩ := List.mem_iff_append.1 hs
  obtain ⟨pre', seg', post', hsegs', hat, hlo', hhi'⟩ := seg_at_of_tiles ht (o := o) (by omega)
  have hpkt := (pkts_getElem_of_tiles ht hsegs' hlo' hhi').symm.trans
    (pkts_getElem_of_tiles ht hsegs hlo hhi)
  rw [packet_at, hat, Option.map_some]
  exact hpkt

/-- The octet ahead of a segment is of another packet. -/
theorem packet_at_before (ht : Tiles 0 h.segs n) (hm : Build.Merged h.segs) (hs : seg ∈ h.segs)
    (ho : o + 1 = seg.at_) : h.packet_at o ≠ some seg.pkt := by
  obtain ⟨pre, post, hsegs⟩ := List.mem_iff_append.1 hs
  have ht' := ht
  rw [hsegs] at ht'
  obtain ⟨m, hpre, hat, -, -⟩ := ht'.of_append
  rcases List.eq_nil_or_concat pre with rfl | ⟨front, t, rfl⟩
  · obtain rfl : 0 = m := hpre
    omega
  · rw [List.concat_eq_append] at hpre hsegs
    obtain ⟨m', -, htat, htpos, htend⟩ := hpre.of_append
    have htend' : m' + t.len = m := htend
    have hmem : t ∈ h.segs := by
      rw [hsegs]
      simp
    have hpkt := packet_at_of_mem ht hmem (o := o) (by omega) (by omega)
    -- it is the segment's neighbour, and would have been joined to it
    unfold Build.Merged at hm
    rw [hsegs, List.isChain_append] at hm
    have hne := hm.2.2 t List.getLast?_concat seg rfl
    rw [hpkt]
    exact fun heq => hne (Option.some.inj heq)

/-- Inside a segment nothing is missing. -/
theorem missing_in_seg (hw : Build.Whole h.segs h.gaps) (hs : seg ∈ h.segs) (hlo : seg.at_ ≤ o)
    (hhi : o < seg.at_ + seg.len) : h.missing o = h.missing seg.at_ := by
  apply Holes.skipped_eq_of_apart hlo
  intro g hg
  have := hw seg hs g hg
  omega

end Half

/-! ## The sequence number of an octet -/

namespace Build

variable {α : Type}

/-- The position on the line of the octet a direction hands back at offset `o`. -/
def place (as : List (Arrival α)) (o : ℕ) : Option ℕ :=
  (final_start as).map fun s => s + o + (reassembled as).missing o

/-- Its sequence number. -/
def number (as : List (Arrival α)) (o : ℕ) : Option UInt32 := (place as o).map UInt32.ofNat

/-- Every octet that arrival `f` carries ahead of the one handed back at `o` is handed back, from
`f`: none was cut off for having come before, none is another packet's, and none was refused. -/
def WholeAhead (as : List (Arrival α)) (f : Arrival α) (o : ℕ) : Prop :=
  ∀ pre post, as = pre ++ f :: post → ∀ q, place as o = some q →
    ∀ p, (run pre).landing f ≤ p → p < q →
      ∃ o', place as o' = some p ∧ (reassembled as).packet_at o' = some f.pkt

/-- An arrival whose packet is fed once stands at one place in the list. -/
theorem split_unique {as pre post pre' post' : List (Arrival α)} {f g : Arrival α}
    (hn : (as.map Arrival.pkt).Nodup) (has : as = pre ++ f :: post) (has' : as = pre' ++ g :: post')
    (hpkt : g.pkt = f.pkt) : pre' = pre ∧ g = f := by
  have hf : f ∈ as := by simp [has]
  have hg : g ∈ as := by simp [has']
  obtain rfl : g = f := List.inj_on_of_nodup_map hn hg hf hpkt
  have hnodup := List.Nodup.of_map _ hn
  rw [has', List.nodup_append, List.nodup_cons] at hnodup
  have hpre : g ∉ pre' := fun hmem => hnodup.2.2 g hmem g List.mem_cons_self rfl
  have hsplit := has'.symm.trans has
  rw [List.append_cons_inj_of_notMem (fun hmem => ?_) (fun hmem => ?_)] at hsplit
  · exact ⟨hsplit.1, rfl⟩
  · exact hpre hmem
  · exact hnodup.2.1.1 hmem

/-- What a packet is known to have brought to a position is what its arrival carries there. -/
theorem brought_by {as pre post : List (Arrival α)} {f : Arrival α}
    (hn : (as.map Arrival.pkt).Nodup) (has : as = pre ++ f :: post) {p : ℕ} {x : α}
    (h : Brought as p (x, f.pkt)) :
    (run pre).landing f ≤ p ∧ f.data[p - (run pre).landing f]? = some x := by
  obtain ⟨pre', g, post', has', hg⟩ := h
  unfold carries at hg
  rw [carried_eq] at hg
  split at hg
  · rename_i hle
    obtain ⟨y, hy, heq⟩ := Option.map_eq_some_iff.1 hg
    obtain ⟨rfl, hpkt⟩ := Prod.mk.inj heq
    obtain ⟨rfl, rfl⟩ := split_unique hn has has' hpkt
    exact ⟨hle, hy⟩
  · exact absurd hg nofun

section Skip

variable {as pre post : List (Arrival α)} {f : Arrival α} {o : ℕ} {seg : Seg}

/-- A direction that hands a segment back opened, and its accounts balance. -/
theorem accounted_of_mem (hseg : seg ∈ (reassembled as).segs) :
    ∃ s, final_start as = some s ∧ Accounted as s (run as).finished ∧
      ∀ o, place as o = some (s + o + (reassembled as).missing o) := by
  rcases (run_accounted as).2 with ⟨s, hs, hacc⟩ | ⟨-, -, hsegs, -⟩
  · refine ⟨s, hs, hacc, ?_⟩
    intro o
    rw [place, hs, Option.map_some]
  · rw [hsegs] at hseg
    exact absurd hseg List.not_mem_nil

/-- An octet handed back stands where its packet's arrival carried it. -/
theorem octet_stands (hn : (as.map Arrival.pkt).Nodup) (has : as = pre ++ f :: post)
    (hseg : seg ∈ (reassembled as).segs) (hlo : seg.at_ ≤ o) (hhi : o < seg.at_ + seg.len)
    (hpkt : seg.pkt = f.pkt) :
    ∃ q, place as o = some q ∧ (run pre).landing f ≤ q ∧
      q - (run pre).landing f < f.data.length ∧
      f.data[q - (run pre).landing f]? = (reassembled as).data[o]? := by
  obtain ⟨s, -, hacc, hplace⟩ := accounted_of_mem hseg
  obtain ⟨x, hx, hbrought⟩ := hacc.provenance seg hseg o hlo hhi
  rw [hpkt] at hbrought
  obtain ⟨hle, hget⟩ := brought_by hn has hbrought
  exact ⟨_, hplace o, hle, (List.getElem?_eq_some_iff.1 hget).1, hget.trans hx.symm⟩

/-- **An octet's number is the one its own packet gives it**: the packet's sequence number, one
more behind a SYN, and its index in the payload. -/
theorem number_octet (hn : (as.map Arrival.pkt).Nodup) (has : as = pre ++ f :: post)
    (hseg : (reassembled as).seg_at o = some seg) (hpkt : seg.pkt = f.pkt) :
    ∃ i, f.data[i]? = (reassembled as).data[o]? ∧
      number as o = some (f.seq + (if Has f.flags SYN then 1 else 0) + UInt32.ofNat i) := by
  obtain ⟨s, -, hacc, -⟩ := accounted_of_mem (Half.seg_at_mem hseg).1
  obtain ⟨hmem, hlo, hhi⟩ := Half.seg_at_spec hacc.tiles hseg
  obtain ⟨q, hq, hle, -, hget⟩ := octet_stands hn has hmem hlo hhi hpkt
  refine ⟨q - (run pre).landing f, hget, ?_⟩
  have hreads := (anchored_run pre).reads_emod f
  rw [number, hq, Option.map_some]
  congr 1
  apply UInt32.toNat_inj.1
  by_cases hsyn : Has f.flags SYN
  · rw [landing_of_syn hsyn] at hle ⊢
    rw [if_pos hsyn, UInt32.toNat_add, UInt32.toNat_add, UInt32.toNat_ofNat', UInt32.toNat_ofNat',
      UInt32.toNat_one]
    omega
  · rw [landing_of_not_syn hsyn] at hle ⊢
    rw [if_neg hsyn, UInt32.add_zero, UInt32.toNat_add, UInt32.toNat_ofNat', UInt32.toNat_ofNat']
    omega

/-- A position and a sequence number that are the same distance short of equal ones are equal. -/
theorem ofNat_add_eq_iff (p d : ℕ) (seq : UInt32) :
    UInt32.ofNat (p + d) = seq + UInt32.ofNat d ↔ p % 2 ^ 32 = seq.toNat := by
  have hlt := seq.toNat_lt
  rw [← UInt32.toNat_inj, UInt32.toNat_add, UInt32.toNat_ofNat', UInt32.toNat_ofNat']
  omega

/-- What is handed back of a packet ahead of an octet of its segment starts the payload, exactly
if the segment does. -/
theorem wholeAhead_iff (hn : (as.map Arrival.pkt).Nodup) (has : as = pre ++ f :: post)
    (hseg : seg ∈ (reassembled as).segs) (hlo : seg.at_ ≤ o) (hhi : o < seg.at_ + seg.len)
    (hpkt : seg.pkt = f.pkt) :
    WholeAhead as f o ↔ place as seg.at_ = some ((run pre).landing f) := by
  obtain ⟨s, -, hacc, hplace⟩ := accounted_of_mem hseg
  have hunbroken := unbroken_finished as hn
  have hinside : ∀ o', seg.at_ ≤ o' → o' < seg.at_ + seg.len →
      (reassembled as).missing o' = (reassembled as).missing seg.at_ :=
    fun o' h1 h2 => Half.missing_in_seg hunbroken.whole hseg h1 h2
  obtain ⟨q, hq, hle, -, -⟩ := octet_stands hn has hseg le_rfl (by omega) hpkt
  rw [hq]
  rw [hplace] at hq
  have hq' := Option.some.inj hq
  constructor
  · intro hwhole
    by_contra hlate
    have hlt : (run pre).landing f < q := by
      rcases Nat.lt_or_ge ((run pre).landing f) q with hlt | hge
      · exact hlt
      · exact absurd (congrArg some (Nat.le_antisymm hge hle)) hlate
    -- the octet one position ahead of the segment is the packet's too, and its neighbour
    have hahead : q - 1 < s + o + (reassembled as).missing o := by
      rw [hinside o hlo hhi]
      omega
    obtain ⟨o', ho', hpkt'⟩ := hwhole pre post has _ (hplace o) (q - 1) (by omega) hahead
    rw [hplace] at ho'
    have ho'' := Option.some.inj ho'
    have hmono : StrictMono fun o => o + (reassembled as).missing o :=
      Holes.place_strictMono (reassembled as).gaps
    have hbefore : o' < seg.at_ := by
      by_contra hge
      have hge' := hmono.monotone (Nat.not_lt.1 hge)
      omega
    have hnext : o' + 1 = seg.at_ := by
      have hskip : (reassembled as).missing o' ≤ (reassembled as).missing seg.at_ :=
        Holes.skipped_mono (reassembled as).gaps hbefore.le
      omega
    rw [← hpkt] at hpkt'
    exact Half.packet_at_before hacc.tiles hunbroken.merged hseg hnext hpkt'
  · intro hstart pre' post' has' p' hp' p hlop hhip
    obtain ⟨rfl, -⟩ := split_unique hn has has' rfl
    have hland := Option.some.inj hstart
    rw [hplace] at hp'
    have hp'' := Option.some.inj hp'
    rw [hinside o hlo hhi] at hp''
    have hin : seg.at_ + (p - q) < seg.at_ + seg.len := by omega
    refine ⟨seg.at_ + (p - q), ?_, ?_⟩
    · rw [hplace, hinside _ (by omega) hin]
      congr 1
      omega
    · rw [← hpkt]
      exact Half.packet_at_of_mem hacc.tiles hseg (by omega) hin

/-- **When `skip` is true**: the packet's sequence number and the distance from the start of its
segment make the octet's number exactly if the packet carries no SYN and everything it carries
ahead of the octet is handed back from it. -/
theorem skip_true_iff (hn : (as.map Arrival.pkt).Nodup) (has : as = pre ++ f :: post)
    (hlen : f.data.length < 2 ^ 32) (hseg : (reassembled as).seg_at o = some seg)
    (hpkt : seg.pkt = f.pkt) :
    number as o = some (f.seq + UInt32.ofNat (o - seg.at_)) ↔
      ¬ Has f.flags SYN ∧ WholeAhead as f o := by
  obtain ⟨s, -, hacc, hplace⟩ := accounted_of_mem (Half.seg_at_mem hseg).1
  obtain ⟨hmem, hlo, hhi⟩ := Half.seg_at_spec hacc.tiles hseg
  obtain ⟨q, hq, hle, hlt, -⟩ := octet_stands hn has hmem le_rfl (by omega) hpkt
  have hinside := Half.missing_in_seg (unbroken_finished as hn).whole hmem hlo hhi
  -- Inside a segment nothing is missing, so its octets stand one behind another.
  have hreads := (anchored_run pre).reads_emod f
  have hq' := hq
  rw [hplace] at hq'
  have hplace_o : place as o = some (q + (o - seg.at_)) := by
    have hinside' : (reassembled as).missing o = (reassembled as).missing seg.at_ := hinside
    rw [hplace, hinside', ← Option.some.inj hq']
    congr 1
    omega
  rw [wholeAhead_iff hn has hmem hlo hhi hpkt, number, hplace_o, hq, Option.map_some,
    Option.some_inj, Option.some_inj, ofNat_add_eq_iff]
  -- A SYN's own number shifts the data by one, and then the numbers cannot agree.
  by_cases hsyn : Has f.flags SYN
  · rw [landing_of_syn hsyn] at hle hlt
    refine ⟨fun hmod => ?_, fun h => absurd hsyn h.1⟩
    omega
  · rw [landing_of_not_syn hsyn] at hle hlt ⊢
    refine ⟨fun hmod => ⟨hsyn, ?_⟩, fun h => ?_⟩
    · omega
    · rw [h.2, hreads]

end Skip

end Build

/-! ## Application messages -/

/-- `app_of`. -/
def app_of (L : Layers) (sport dport : UInt16) (data : Bytes) : Option ProtoId :=
  L.by_tcp_port sport dport data

/-- `Message`: one complete application message found in a reassembled direction. -/
structure Message where
  stream : ℕ
  dir : Fin 2
  app : ProtoId
  /-- Extent in the direction's `data`. -/
  at_ : ℕ
  len : ℕ
  /-- The packet the message starts in. -/
  pkt : ℕ
  /-- How much of that packet's payload runs ahead of the message. -/
  skip : ℕ

/-- The message at an extent, `none` where no segment holds its start. -/
def message_at (i : ℕ) (d : Fin 2) (app : ProtoId) (h : Half UInt8) (m : ℕ × ℕ) : Option Message :=
  (h.seg_at m.1).map fun seg => ⟨i, d, app, m.1, m.2, seg.pkt, m.1 - seg.at_⟩

/-- The ports a direction runs between. -/
def Stream.ports (s : Stream) (d : Fin 2) : UInt16 × UInt16 :=
  if d = 0 then (s.sport, s.dport) else (s.dport, s.sport)

/-- The messages of direction `d` of stream `i`. -/
def half_messages (L : Layers) (i : ℕ) (s : Stream) (d : Fin 2) : List Message :=
  let h := s.halves d
  match app_of L (s.ports d).1 (s.ports d).2 h.data with
  | some app => (messages app h.data).filterMap (message_at i d app h)
  | none => []

/-- The order `sort_by_key(|m| (m.pkt, m.skip))` sorts by. -/
def by_start (m n : Message) : Prop := m.pkt < n.pkt ∨ m.pkt = n.pkt ∧ m.skip ≤ n.skip

instance : DecidableRel by_start := fun _ _ => inferInstanceAs (Decidable (_ ∨ _))

/-- `app_messages`: every complete application message in every stream, in capture order. -/
def app_messages (L : Layers) (streams : List Stream) : List Message :=
  (streams.zipIdx.flatMap fun s =>
    half_messages L s.2 s.1 0 ++ half_messages L s.2 s.1 1).insertionSort by_start

/-- What a message says of its stream. -/
theorem mem_app_messages {L : Layers} {streams : List Stream} {m : Message}
    (h : m ∈ app_messages L streams) :
    ∃ st, streams[m.stream]? = some st ∧ ∃ seg, (st.halves m.dir).seg_at m.at_ = some seg ∧
      m.pkt = seg.pkt ∧ m.skip = m.at_ - seg.at_ := by
  have hmem := (List.perm_insertionSort by_start _).subset h
  obtain ⟨⟨st, i⟩, hst, hm⟩ := List.mem_flatMap.1 hmem
  have hget : streams[i]? = some st := List.mem_zipIdx_iff_getElem?.1 hst
  have hhalf : ∀ d, m ∈ half_messages L i st d → ∃ st', streams[m.stream]? = some st' ∧
      ∃ seg, (st'.halves m.dir).seg_at m.at_ = some seg ∧ m.pkt = seg.pkt ∧
        m.skip = m.at_ - seg.at_ := by
    intro d hd
    unfold half_messages at hd
    dsimp only at hd
    split at hd
    · obtain ⟨x, -, hx⟩ := List.mem_filterMap.1 hd
      obtain ⟨seg, hseg, rfl⟩ := Option.map_eq_some_iff.1 hx
      exact ⟨st, hget, seg, hseg, rfl, rfl⟩
    · exact absurd hd List.not_mem_nil
  rcases List.mem_append.1 hm with hm | hm
  · exact hhalf 0 hm
  · exact hhalf 1 hm

/-! ## Where a message comes from -/

/-- The message was found in a direction that was fed `as`, in the frame `p` with segment `s`. -/
structure Message.From (L : Layers) (ps : List Push) (streams : List Stream) (m : Message)
    (as : List (Arrival UInt8)) (p : Push) (s : Segment) : Prop where
  fed : ∃ st life k, streams[m.stream]? = some st ∧ MadeOf L ps life k st ∧
    as = st.fed L life k m.dir
  frame : p ∈ ps ∧ p.pos = m.pkt
  segment : p.segment L = some s
  arrival : p.arrival s ∈ as

/-- The frame's sequence number and `skip` make the sequence number of the message's first octet. -/
def Message.NumberedBy (m : Message) (as : List (Arrival UInt8)) (s : Segment) : Prop :=
  Build.number as m.at_ = some (s.seq + UInt32.ofNat m.skip)

/-- The frame carries no SYN, and all of its payload ahead of the message is handed back from it. -/
def Message.StartsWhole (m : Message) (as : List (Arrival UInt8)) (p : Push) (s : Segment) : Prop :=
  ¬ Has s.flags SYN ∧ Build.WholeAhead as (p.arrival s) m.at_

/-- What `reframe` makes of the frame with a message's `skip` carries the two's sum. -/
def Message.Rewritten (L : Layers) (m : Message) (p : Push) (s : Segment) : Prop :=
  ∀ data f, reframe L p.buf p.link (UInt32.ofNat m.skip) data = some f →
    ∃ sp, splice L p.buf p.link = some sp ∧
      be32 f (sp.tcp + 4) = s.seq + UInt32.ofNat m.skip

theorem Push.length_data_le (p : Push) (s : Segment) : (p.data s).length ≤ p.buf.length := by
  rw [data, slice, List.length_drop, List.length_take]
  omega

/-! ## Two frames to run on -/

/-- `tls::DESC`. -/
def tls_desc : ProtoDesc where
  min_len := 5
  header_len hdr := max (min (record_len hdr) hdr.length) 5
  next _ := .Raw

/-- TLS on its own port, and no other layer beside the ones described. -/
def tls_layers : Layers :=
  { Layers.core with
    desc := fun p => if p = .Tls then tls_desc else raw_desc
    by_tcp_port := fun sport dport d =>
      if (dport = 443 ∨ sport = 443) ∧ tls_looks_like d then some .Tls else none }

/-- A TLS record of one octet. -/
def tls_record (x : UInt8) : Bytes := [23, 3, 3, 0, 1, x]

/-- Two records; the second frame sends the last three octets of the first one again. -/
def sent_again : List Push :=
  [⟨0, tcp_frame [10, 0, 0, 1] [10, 0, 0, 2] 40000 443 1000 0x10 (tls_record 0x61), .Ether⟩,
    ⟨1, tcp_frame [10, 0, 0, 1] [10, 0, 0, 2] 40000 443 1003 0x10
      ([0, 1, 0x61] ++ tls_record 0x62), .Ether⟩]

/-- The one connection of the two frames. -/
def sent_again_keys : List Key := [key_of (wide [10, 0, 0, 1]) 40000 (wide [10, 0, 0, 2]) 443 false]

theorem sent_again_keys_perm : sent_again_keys.Perm (pushes tls_layers sent_again).live.keys := by
  decide +kernel

/-! ## When a message is numbered right -/

section From

variable {L : Layers} {ps : List Push} {keys : List Key} {m : Message}

/-- Every message comes from a frame that was pushed. -/
theorem exists_from (hk : keys.Perm (pushes L ps).live.keys)
    (hm : m ∈ app_messages L ((pushes L ps).finish keys)) :
    ∃ as p s, m.From L ps ((pushes L ps).finish keys) as p s := by
  obtain ⟨st, hst, seg, hseg, hpkt, -⟩ := mem_app_messages hm
  obtain ⟨k, life, hmade⟩ := finish_sourced L ps hk st (List.mem_of_getElem? hst)
  rw [hmade.halves] at hseg
  obtain ⟨start, -, hacc, -⟩ := Build.accounted_of_mem (Half.seg_at_mem hseg).1
  obtain ⟨hmem, hlo, hhi⟩ := Half.seg_at_spec hacc.tiles hseg
  obtain ⟨x, -, pre, a, post, has, hcarries⟩ := hacc.provenance seg hmem m.at_ hlo hhi
  have hapkt : a.pkt = seg.pkt := by
    unfold Build.carries at hcarries
    rw [Build.carried_eq] at hcarries
    split at hcarries
    · obtain ⟨y, -, heq⟩ := Option.map_eq_some_iff.1 hcarries
      exact congrArg Prod.snd heq
    · exact absurd hcarries nofun
  have ha : a ∈ st.fed L life k m.dir := by
    rw [has]
    simp
  obtain ⟨p, hp, s, hs, -, rfl⟩ := hmade.mem_fed ha
  exact ⟨_, p, s, ⟨st, life, k, hst, hmade, rfl⟩, ⟨hp, hapkt.trans hpkt.symm⟩, hs, ha⟩

/-- The segment a message starts in is of its frame, and the direction was fed the frame once. -/
theorem Message.From.located {as : List (Arrival UInt8)} {p : Push} {s : Segment}
    (h : m.From L ps ((pushes L ps).finish keys) as p s) (hn : (ps.map Push.pos).Nodup)
    (hm : m ∈ app_messages L ((pushes L ps).finish keys)) :
    (as.map Arrival.pkt).Nodup ∧ ∃ seg, (Build.reassembled as).seg_at m.at_ = some seg ∧
      seg.pkt = (p.arrival s).pkt ∧ m.skip = m.at_ - seg.at_ := by
  obtain ⟨st, hst, seg, hseg, hpkt, hskip⟩ := mem_app_messages hm
  obtain ⟨st', life, k, hst', hmade, rfl⟩ := h.fed
  obtain rfl : st = st' := Option.some.inj (hst.symm.trans hst')
  rw [hmade.halves] at hseg
  exact ⟨hmade.nodup_pkts hn m.dir, seg, hseg, hpkt.symm.trans h.frame.2.symm, hskip⟩

/-- The number of a message's first octet is the one its frame gives it. -/
theorem Message.From.number {as : List (Arrival UInt8)} {p : Push} {s : Segment}
    (h : m.From L ps ((pushes L ps).finish keys) as p s) (hn : (ps.map Push.pos).Nodup)
    (hm : m ∈ app_messages L ((pushes L ps).finish keys)) :
    ∃ i, (p.data s)[i]? = (Build.reassembled as).data[m.at_]? ∧
      Build.number as m.at_ =
        some (s.seq + (if Has s.flags SYN then 1 else 0) + UInt32.ofNat i) := by
  obtain ⟨hnodup, seg, hseg, hpkt, -⟩ := h.located hn hm
  obtain ⟨pre, post, has⟩ := List.append_of_mem h.arrival
  exact Build.number_octet hnodup has hseg hpkt

/-- **When a message's provenance is true**: in whatever is handed back, the sequence number of
the frame a message starts in and its `skip` make the sequence number of the message's first
octet, which `reframe` then writes, exactly if that frame carries no SYN and all of its payload
ahead of the message is handed back from it. The number of an octet is the one its frame gives
it. -/
theorem message_provenance_iff (L : Layers) (ps : List Push) (hn : (ps.map Push.pos).Nodup)
    (hlen : ∀ p ∈ ps, p.buf.length < 2 ^ 32) (keys : List Key)
    (hk : keys.Perm (pushes L ps).live.keys) :
    ∀ m ∈ app_messages L ((pushes L ps).finish keys),
      (∃ as p s, m.From L ps ((pushes L ps).finish keys) as p s) ∧
      ∀ as p s, m.From L ps ((pushes L ps).finish keys) as p s →
        (m.NumberedBy as s ↔ m.StartsWhole as p s) ∧ m.Rewritten L p s ∧
        ∃ i, (p.data s)[i]? = (Build.reassembled as).data[m.at_]? ∧
          Build.number as m.at_ =
            some (s.seq + (if Has s.flags SYN then 1 else 0) + UInt32.ofNat i) := by
  intro m hm
  refine ⟨exists_from hk hm, ?_⟩
  intro as p s hfrom
  obtain ⟨hnodup, seg, hseg, hpkt, hskip⟩ := hfrom.located hn hm
  obtain ⟨pre, post, has⟩ := List.append_of_mem hfrom.arrival
  -- The arrival's number and place decide the first two; the rest is what `reframe` writes.
  refine ⟨?_, ?_, hfrom.number hn hm⟩
  · have hdata : (p.arrival s).data.length < 2 ^ 32 :=
      (p.length_data_le s).trans_lt (hlen p hfrom.frame.1)
    unfold Message.NumberedBy Message.StartsWhole
    rw [hskip]
    exact Build.skip_true_iff hnodup has hdata hseg hpkt
  · intro data f hf
    exact reframe_seq hfrom.segment hf

end From

/-- Every message of the two frames, and there are two. -/
theorem message_provenance_iff_sent_again :
    (app_messages tls_layers ((pushes tls_layers sent_again).finish sent_again_keys)).length = 2 ∧
    ∀ m ∈ app_messages tls_layers ((pushes tls_layers sent_again).finish sent_again_keys),
      ∀ as p s, m.From tls_layers sent_again
          ((pushes tls_layers sent_again).finish sent_again_keys) as p s →
        (m.NumberedBy as s ↔ m.StartsWhole as p s) := by
  refine ⟨by decide +kernel, ?_⟩
  intro m hm as p s hfrom
  have hlen : ∀ p ∈ sent_again, p.buf.length < 2 ^ 32 := by decide
  exact ((message_provenance_iff tls_layers sent_again (by decide) hlen sent_again_keys
    sent_again_keys_perm m hm).2 as p s hfrom).1

/-! ## A message behind a retransmission -/

theorem sent_again_messages :
    (app_messages tls_layers ((pushes tls_layers sent_again).finish sent_again_keys)).map
      (fun m => (m.stream, m.dir, m.at_, m.pkt, m.skip)) = [(0, 0, 0, 0, 0), (0, 0, 6, 1, 0)] := by
  decide +kernel

/-- The second frame as it is fed: its sequence number, flags and payload. -/
theorem sent_again_second :
    ∀ p ∈ sent_again, p.pos = 1 → ∀ s, p.segment tls_layers = some s →
      s.seq = 1003 ∧ s.flags = 0x10 ∧ p.data s = [0, 1, 0x61] ++ tls_record 0x62 := by
  have hall : ∀ p ∈ sent_again, p.pos = 1 →
      (p.segment tls_layers).map (fun s => (s.seq, s.flags, p.data s)) =
        some (1003, 0x10, [0, 1, 0x61] ++ tls_record 0x62) := by
    decide +kernel
  intro p hp hpos s hs
  have h := hall p hp hpos
  rw [hs, Option.map_some] at h
  simpa using h

/-- The frame of every message and its `skip` make the message's number. -/
def MessagesNumbered (L : Layers) (ps : List Push) : Prop :=
  ∀ keys, keys.Perm (pushes L ps).live.keys →
    ∀ m ∈ app_messages L ((pushes L ps).finish keys),
      ∀ as p s, m.From L ps ((pushes L ps).finish keys) as p s → m.NumberedBy as s

/-- The second record is numbered three octets early: the three sent again were cut off in front
of it, and `skip` does not count them. -/
theorem sent_again_misnumbered : ¬ MessagesNumbered tls_layers sent_again := by
  intro h
  have hk := sent_again_keys_perm
  have hmem : ((0, 0, 6, 1, 0) : ℕ × Fin 2 × ℕ × ℕ × ℕ) ∈
      (app_messages tls_layers ((pushes tls_layers sent_again).finish sent_again_keys)).map
        (fun m => (m.stream, m.dir, m.at_, m.pkt, m.skip)) := by
    rw [sent_again_messages]
    simp
  obtain ⟨m, hm, heq⟩ := List.mem_map.1 hmem
  obtain ⟨hstream, hdir, hat, hpkt, hskip⟩ : m.stream = 0 ∧ m.dir = 0 ∧ m.at_ = 6 ∧ m.pkt = 1 ∧
      m.skip = 0 := by simpa using heq
  obtain ⟨as, p, s, hfrom⟩ := exists_from hk hm
  obtain ⟨hseq, hflags, hdata⟩ := sent_again_second p hfrom.frame.1
    (hfrom.frame.2.trans hpkt) s hfrom.segment
  -- the record's first octet, 23, is the packet's fourth
  have hoctet : (Build.reassembled as).data[m.at_]? = some 23 := by
    obtain ⟨st, life, k, hst, hmade, rfl⟩ := hfrom.fed
    have hhalf : (((pushes tls_layers sent_again).finish sent_again_keys)[0]?.map
        fun st => (st.halves 0).data[6]?) = some (some 23) := by
      decide +kernel
    rw [hstream] at hst
    rw [hst, Option.map_some] at hhalf
    rw [← hmade.halves, hdir, hat]
    exact Option.some.inj hhalf
  have hnodup : (sent_again.map Push.pos).Nodup := by decide
  obtain ⟨i, hi, hnumber⟩ := hfrom.number hnodup hm
  have htrue := h _ hk m hm as p s hfrom
  have hnosyn : ¬ Has s.flags SYN := by
    rw [hflags]
    decide
  unfold Message.NumberedBy at htrue
  rw [hnumber, hskip, hseq, if_neg hnosyn] at htrue
  rw [hoctet, hdata] at hi
  have hlt : i < 9 := (List.getElem?_eq_some_iff.1 hi).1
  have hall : ∀ i, i < 9 → (([0, 1, 0x61] ++ tls_record 0x62 : Bytes))[i]? = some 23 →
      some ((1003 : UInt32) + 0 + UInt32.ofNat i) ≠ some (1003 + UInt32.ofNat 0) := by
    decide
  exact hall i hlt hi htrue

end Wiry.Stream
