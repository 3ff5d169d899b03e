/-
`fragment` and `defragment` against each other: what is split is put back,
whatever order its fragments arrive in, as long as one datagram can hold it.

`Laid` is what either splitter has to show of its frames: where each of them is
found by the dissector, under which key, and which piece it carries. From there
on one proof serves both, over any permutation of the frames.
-/
import Wiry.Frag.Located

set_option autoImplicit false

namespace Wiry.Frag

open Wiry.Packet

/-! ## Pieces in any order -/

section Pieces

variable {L : Layers} {link : ProtoId} {k : Key} {H : Head} {P : Bytes} {unit : ℕ}
  {F : ℕ × ℕ → Bytes} {fs : List Bytes}

/-- The pieces of a split as frames: `F` lays down the frame of each. -/
structure Laid (L : Layers) (link : ProtoId) (k : Key) (H : Head) (P : Bytes) (unit : ℕ)
    (F : ℕ × ℕ → Bytes) : Prop where
  unit_pos : 8 ≤ unit
  unit_lt : unit < P.length
  length_le : P.length ≤ MAX_DATAGRAM + 1
  part : ∀ c ∈ cuts unit P.length, ∃ f, Part L link k H P (F c) c f

/-- One frame comes back where the group assembles. -/
theorem Laid.defragment_eq (h : Laid L link k H P unit F)
    (hfs : fs.Perm ((cuts unit P.length).map F)) (hP : P.length ≤ MAX_DATAGRAM) {W : Bytes}
    (hW : ∀ g : Group, g.head = some H → g.data = P → g.assemble = some W) (keys : List Key) :
    defragment L fs link keys = [.Complete 0 W] := by
  obtain ⟨cs, hcs, rfl⟩ := exists_perm_of_perm_map hfs
  have hunit := h.unit_pos
  have hlt := h.unit_lt
  have hcut := (cuts_cut (show 0 < unit by omega) P).perm hcs
  have hroom : cs.length ≤ MAX_FRAGS := by
    rw [hcs.length_eq]
    exact length_cuts hunit h.length_le
  -- each frame of the permutation carries its cut
  have hparts : List.Forall₂ (fun buf c => ∃ f, Part L link k H P buf c f) (cs.map F) cs := by
    rw [List.forall₂_map_left_iff]
    exact List.forall₂_same.2 fun c hc => h.part c (hcs.subset hc)
  obtain ⟨g, hhead, hdata, hat, hpieces⟩ :=
    defragment_pieces hP (by omega) hparts hcut hroom keys
  have hfirst : g.at_.headD 0 = 0 := by
    rw [hat]
    cases cs with
    | nil => rfl
    | cons c cs => rfl
  rw [hpieces, closed, hW g hhead hdata, hfirst]
  rfl

/-- None comes back where it does not. -/
theorem Laid.complete_frames_eq (h : Laid L link k H P unit F)
    (hfs : fs.Perm ((cuts unit P.length).map F))
    (hnone : ∀ g : Group, g.head = some H → g.data = P → g.assemble = none) (keys : List Key) :
    complete_frames (defragment L fs link keys) = [] := by
  have hunit := h.unit_pos
  have hlt := h.unit_lt
  have hcut := cuts_cut (show 0 < unit by omega) P
  have hframes : ∀ buf ∈ fs, ∃ c f, Inside P c ∧ Part L link k H P buf c f := by
    intro buf hbuf
    obtain ⟨c, hc, rfl⟩ := List.mem_map.1 (hfs.subset hbuf)
    obtain ⟨f, hf⟩ := h.part c hc
    exact ⟨c, f, hcut.inside c hc, hf⟩
  -- No completion: it would be gathered from fragments of this one datagram, whose assembly fails.
  have hcompletions : completions L link (numbered fs) = [] := by
    rw [List.eq_nil_iff_forall_not_mem]
    intro c hc
    obtain ⟨g, run, hgathered, hcomplete, hassemble⟩ := completions_sound _ c hc
    have hrun : ∀ p ∈ run, ∃ c f, Inside P c ∧ Part L link k H P p.2 c f := by
      intro p hp
      apply hframes
      rw [← map_snd_numbered fs]
      exact List.mem_map_of_mem (hgathered.sublist.subset hp)
    obtain ⟨done, hheld⟩ := (Held.init H P g.seq).gather hrun
    rw [← hgathered.eq] at hheld
    obtain ⟨hhead, hdata⟩ := hheld.of_complete (by omega) hcomplete
    rw [hnone g hhead hdata] at hassemble
    exact absurd hassemble nofun
  have hperm := complete_frames_defragment L fs link keys
  rw [hcompletions] at hperm
  exact hperm.eq_nil

end Pieces

/-- A frame that carries no fragment passes. -/
theorem defragment_whole {L : Layers} {link : ProtoId} {buf : Bytes}
    (h : inspect L buf link = none) (keys : List Key) :
    defragment L [buf] link keys = [.Whole 0] := by
  have hpush : pushes L link (numbered [buf]) = { out := [.Whole 0] } := by
    show Reassembler.push L link {} (position 0) buf = _
    unfold Reassembler.push
    rw [h]
    rfl
  have hdrained : ({ out := [.Whole 0] } : Reassembler).drained keys = [] := by
    unfold Reassembler.drained
    simp
  unfold defragment Reassembler.finish
  rw [hpush, Reassembler.foldl_finish_turn, hdrained]
  rfl

/-! ## The two versions -/

section Versions

variable {L : Layers} {link : ProtoId} {buf : Bytes} {off fragsize : ℕ}

/-- More than one frame comes of a datagram that is split, and only of one. -/
theorem length_cuts_map {unit len : ℕ} (hunit : 0 < unit) (hlt : unit < len) (F : ℕ × ℕ → Bytes) :
    1 < ((cuts unit len).map F).length := by
  obtain ⟨m, rfl⟩ : ∃ m, len = m + 2 := ⟨len - 2, by omega⟩
  rw [List.length_map, cuts, cuts_from, if_pos (by omega), cuts_from, if_pos (by omega)]
  simp

/-- The fragments of a datagram that is none itself, as laid pieces. -/
theorem Splits4.laid {s : Split4} (h : Splits4 buf off s) (hbase : s.word &&& 0x1fff = 0)
    (hmore : s.word &&& 0x2000 = 0)
    (hip : ∀ f ∈ (cuts s.unit (payload_v4 buf off s).length).map fun c => frame_v4 buf off s c.1 c.2,
      ip_layer L f link = some (.Ipv4, off)) :
    Laid L link (key_v4 buf off) ⟨header_v4 buf off s 0 s.unit, off, false⟩ (payload_v4 buf off s)
      s.unit fun c => frame_v4 buf off s c.1 c.2 where
  unit_pos := h.unit_pos
  unit_lt := h.unit_lt
  length_le := by
    have hoffset := h.offset_le
    unfold MAX_DATAGRAM
    omega
  part c hc := h.part hbase hmore hc (hip _ (List.mem_map_of_mem hc))

/-- The frames of an IPv6 split are laid out under one key, with the fragment header taken out of
the head. -/
theorem Splits6.laid {s : Split6} (h : Splits6 buf off s)
    (hip : ∀ f ∈ (cuts s.unit (payload_v6 buf s).length).map fun c => frame_v6 buf off s c.1 c.2,
      ip_layer L f link = some (.Ipv6, off)) :
    Laid L link (key_v6 buf off s)
      ⟨put (buf.take s.fixed) (off + 4) (octets_of 2 (s.fixed - (off + 40) + 8 + s.unit)), off, true⟩
      (payload_v6 buf s) s.unit fun c => frame_v6 buf off s c.1 c.2 where
  unit_pos := h.unit_pos
  unit_lt := h.unit_lt
  length_le := by
    have hoffset := h.offset_le
    unfold MAX_DATAGRAM
    omega
  part c hc := h.part hc (hip _ (List.mem_map_of_mem hc))

end Versions

/-! ## IPv4 -/

/-- A datagram at `off` that says of itself what it is and may be split: five words of header at
least, a Total Length that covers the header and stays in the frame, neither a fragment nor marked
not to be one, with the checksum of its header. -/
structure WellFormed4 (buf : Bytes) (off : ℕ) : Prop where
  ihl : 5 ≤ (buf.getD off 0 &&& 0x0f).toNat
  total_ge : (buf.getD off 0 &&& 0x0f).toNat * 4 ≤ (be16 buf (off + 2)).toNat
  total_le : off + (be16 buf (off + 2)).toNat ≤ buf.length
  flags : be16 buf (off + 6) &&& 0x7fff = 0
  checksum : be16 buf (off + 10) = ones_complement
    (slice (put buf (off + 10) [0, 0]) off (off + (buf.getD off 0 &&& 0x0f).toNat * 4))

/-- A word none of whose masked bits is set has none of fewer set. -/
theorem mask_eq_zero {w m m' : UInt16} (h : w &&& m = 0) (hm : m &&& m' = m') : w &&& m' = 0 := by
  rw [← hm, ← UInt16.and_assoc, h, UInt16.zero_and]

section RoundTrip4

variable {L : Layers} {link : ProtoId} {buf : Bytes} {off : ℕ}

theorem WellFormed4.extent (h : WellFormed4 buf off) :
    v4_extent buf off = some ((buf.getD off 0 &&& 0x0f).toNat * 4,
      off + (be16 buf (off + 2)).toNat) := by
  have hihl := h.ihl
  have hge := h.total_ge
  have hle := h.total_le
  refine v4_extent_eq_some_iff.2 ⟨by omega, by omega, ?_⟩
  rw [if_pos ⟨hge, hle⟩]

/-- Neither an offset nor more to come: no fragment. -/
theorem inspect_whole (hip : ip_layer L buf link = some (.Ipv4, off))
    (hoffset : be16 buf (off + 6) &&& 0x1fff = 0) (hmore : be16 buf (off + 6) &&& 0x2000 = 0) :
    inspect L buf link = none := by
  unfold inspect
  rw [hip]
  dsimp only
  unfold inspect_v4
  cases v4_extent buf off with
  | none => rfl
  | some extent =>
    dsimp only
    rw [hoffset, hmore, if_pos ⟨rfl, rfl⟩]

/-- And it is no fragment. -/
theorem WellFormed4.inspect_eq (h : WellFormed4 buf off)
    (hip : ip_layer L buf link = some (.Ipv4, off)) : inspect L buf link = none := by
  have hoffset : be16 buf (off + 6) &&& 0x1fff = 0 := mask_eq_zero h.flags rfl
  have hmore : be16 buf (off + 6) &&& 0x2000 = 0 := mask_eq_zero h.flags rfl
  exact inspect_whole hip hoffset hmore

end RoundTrip4

/-- **What is split under IPv4 comes back.** The fragments of a well-formed datagram, in any order,
make one piece: the datagram as it was, or the frame itself where it was not split. -/
theorem fragment_v4_round_trip (L : Layers) (buf : Bytes) (link : ProtoId) (fragsize off : ℕ)
    (hip : ip_layer L buf link = some (.Ipv4, off)) (hwf : WellFormed4 buf off)
    (hlocated : ∀ f ∈ fragment L buf link fragsize, ip_layer L f link = some (.Ipv4, off))
    (fs : List Bytes) (hfs : fs.Perm (fragment L buf link fragsize)) (keys : List Key) :
    defragment L fs link keys =
      if 1 < (fragment L buf link fragsize).length then
        [.Complete 0 (buf.take (off + (be16 buf (off + 2)).toNat))]
      else [.Whole 0] := by
  rw [fragment_eq_v4 hip] at hlocated hfs ⊢
  -- Not split, or cut; the pieces of a cut are a permutation of the cuts' frames.
  rcases fragment_v4_cases buf off fragsize with hwhole | ⟨s, hs, hcuts⟩
  · rw [hwhole] at hfs ⊢
    rw [List.perm_singleton.1 hfs]
    exact defragment_whole (hwf.inspect_eq hip) keys
  · rw [hcuts] at hlocated hfs ⊢
    have hpos : 0 < s.unit := Nat.lt_of_lt_of_le (by decide) hs.unit_pos
    obtain ⟨hihl, hend⟩ := Prod.mk.inj (Option.some.inj (hs.extent.symm.trans hwf.extent))
    have hlaid := hs.laid (by rw [hs.word_eq]; exact mask_eq_zero hwf.flags rfl)
      (by rw [hs.word_eq]; exact mask_eq_zero hwf.flags rfl) hlocated
    have hpayload := hs.length_payload
    have hlt := (be16 buf (off + 2)).toNat_lt
    have hge := hwf.total_ge
    have hmax : MAX_DATAGRAM = 65535 := rfl
    -- what is put together again is the datagram, its flags and checksum included
    have hback := hs.whole_eq hwf.ihl hend.symm (mask_eq_zero hwf.flags rfl) (by
      rw [hihl]
      exact hwf.checksum)
    rw [if_pos (length_cuts_map hpos hs.unit_lt _), hlaid.defragment_eq hfs (by omega) _ keys]
    · rw [← hend]
      intro g hhead hdata
      rw [hs.assemble hhead hdata, if_neg (by omega), hback]

/-- An Ethernet frame with an option that is copied, one that is not, and six octets of trailer
behind the datagram. -/
def sample_v4 : Bytes :=
  let frame := ether_header ++ [0x47, 0] ++ octets_of 2 52 ++ [0, 9, 0, 0, 64, 17, 0, 0] ++
    [10, 0, 0, 1, 10, 0, 0, 2] ++ [0x07, 4, 1, 2, 0x94, 4, 3, 4] ++ (List.range 24).map UInt8.ofNat ++
    List.replicate 6 0
  put frame 24 (octets_of 2 (ones_complement (slice frame 14 42)).toNat)

/-- A datagram of three fragments, fed back to front. -/
theorem fragment_v4_round_trip_sample :
    (fragment Layers.core sample_v4 .Ether 8).length = 3 ∧
      defragment Layers.core (fragment Layers.core sample_v4 .Ether 8).reverse .Ether [] =
        [.Complete 0 (sample_v4.take 66)] := by
  have hwf : WellFormed4 sample_v4 14 := by
    refine ⟨?_, ?_, ?_, ?_, ?_⟩
    all_goals decide +kernel
  have hback := fragment_v4_round_trip Layers.core sample_v4 .Ether 8 14 (by decide +kernel) hwf
    (fragment_located_ether Layers.core (fun _ => rfl) (.inl ⟨rfl, by decide +kernel⟩)
      (by decide +kernel) 8) _ (List.reverse_perm _) []
  have hthree : (fragment Layers.core sample_v4 .Ether 8).length = 3 := by decide +kernel
  have hend : 14 + (be16 sample_v4 (14 + 2)).toNat = 66 := by decide +kernel
  rw [hthree, if_pos (by decide), hend] at hback
  exact ⟨hthree, hback⟩

/-! ## IPv6 -/

/-- **What is split under IPv6 comes back**, whatever extension headers it carries; and what is not
split is handed back as it is. -/
theorem fragment_v6_round_trip (L : Layers) (buf : Bytes) (link : ProtoId) (fragsize off : ℕ)
    (hip : ip_layer L buf link = some (.Ipv6, off)) (hpos : 0 < (be16 buf (off + 4)).toNat)
    (hin : off + 40 + (be16 buf (off + 4)).toNat ≤ buf.length)
    (hlocated : ∀ f ∈ fragment L buf link fragsize, ip_layer L f link = some (.Ipv6, off)) :
    (1 < (fragment L buf link fragsize).length →
        ∀ fs : List Bytes, fs.Perm (fragment L buf link fragsize) → ∀ keys,
          defragment L fs link keys =
            [.Complete 0 (buf.take (off + 40 + (be16 buf (off + 4)).toNat))]) ∧
      (¬ 1 < (fragment L buf link fragsize).length → fragment L buf link fragsize = [buf]) := by
  rw [fragment_eq_v6 hip] at hlocated ⊢
  -- Not split, or cut.
  rcases fragment_v6_cases buf off fragsize with hwhole | ⟨s, hs, hcuts⟩
  · rw [hwhole]
    exact ⟨fun hlen => absurd hlen (by simp), fun _ => rfl⟩
  · rw [hcuts] at hlocated ⊢
    have hunit : 0 < s.unit := Nat.lt_of_lt_of_le (by decide) hs.unit_pos
    have hmany := length_cuts_map hunit hs.unit_lt fun c => frame_v6 buf off s c.1 c.2
    refine ⟨fun _ fs hfs keys => ?_, fun hone => absurd hmany hone⟩
    -- the extent is the payload length's, which is not zero and fits
    have hextent : v6_end buf off = some (off + 40 + (be16 buf (off + 4)).toNat) := by
      rw [v6_end_eq_some_iff, if_pos ⟨hpos, hin⟩]
      exact ⟨by omega, rfl⟩
    have hend : off + 40 + (be16 buf (off + 4)).toNat = s.end_ :=
      Option.some.inj (hextent.symm.trans hs.extent)
    have hpayload := hs.length_payload
    have hlt := (be16 buf (off + 4)).toNat_lt
    have hmax : MAX_DATAGRAM = 65535 := rfl
    obtain ⟨-, hmin, -, -, hfixed, -⟩ := hs.positions
    rw [(hs.laid hlocated).defragment_eq hfs (by omega) _ keys]
    · intro g hhead hdata
      rw [hs.assemble hhead hdata, if_neg (by omega), hs.whole_eq hend, hend]

/-- A raw IPv6 datagram with a Hop-by-Hop, a Routing and a Destination Options header. -/
def sample_v6 : Bytes :=
  [0x60, 0, 0, 0] ++ octets_of 2 48 ++ [0, 64] ++ List.replicate 31 0 ++ [1] ++
    [43, 0, 0, 0, 0, 0, 0, 0] ++ [60, 0, 0, 0, 0, 0, 0, 0] ++ [17, 0, 1, 4, 0, 0, 0, 0] ++
    (List.range 24).map UInt8.ofNat

/-- A bare IPv6 datagram of two. -/
theorem fragment_v6_round_trip_sample :
    (fragment Layers.core sample_v6 .Ipv4 16).length = 2 ∧
      defragment Layers.core (fragment Layers.core sample_v6 .Ipv4 16).reverse .Ipv4 [] =
        [.Complete 0 sample_v6] := by
  have htwo : (fragment Layers.core sample_v6 .Ipv4 16).length = 2 := by decide +kernel
  have hback := (fragment_v6_round_trip Layers.core sample_v6 .Ipv4 16 0 (by decide +kernel)
    (by decide +kernel) (by decide +kernel)
    (fragment_located_raw Layers.core (.inr rfl) rfl (by decide +kernel) 16)).1
    (by rw [htwo]; decide) _ (List.reverse_perm _) []
  have hend : sample_v6.take (0 + 40 + (be16 sample_v6 (0 + 4)).toNat) = sample_v6 := by
    decide +kernel
  rw [hend] at hback
  exact ⟨htwo, hback⟩

/-! ## Any frame -/

/-- The octets past a datagram's fixed header: for IPv4 past its options too. -/
def ip_payload (p : ProtoId) (buf : Bytes) (off : ℕ) : Option Bytes :=
  match p with
  | .Ipv4 => (v4_extent buf off).map fun e => slice buf (off + e.1) e.2
  | .Ipv6 => (v6_end buf off).map fun e => slice buf (off + 40) e
  | _ => none

/-- The octets a datagram's length field has to count: Total Length counts the header. -/
def ip_length (p : ProtoId) (buf : Bytes) (off : ℕ) : ℕ :=
  match p with
  | .Ipv4 => (v4_extent buf off).elim 0 fun e => e.2 - off
  | .Ipv6 => (v6_end buf off).elim 0 fun e => e - (off + 40)
  | _ => 0

/-- The fragments `fs` make one piece, complete and with the payload of the frame they are of. -/
def PutBack (L : Layers) (link : ProtoId) (p : ProtoId) (off : ℕ) (buf : Bytes) (fs : List Bytes)
    (keys : List Key) : Prop :=
  ∃ frame, defragment L fs link keys = [.Complete 0 frame] ∧
    ip_payload p frame off = ip_payload p buf off

/-- Pieces that are laid come back if and only if a group of them assembles. -/
theorem Laid.comes_back_iff {L : Layers} {link : ProtoId} {k : Key} {H : Head} {P : Bytes} {unit : ℕ}
    {F : ℕ × ℕ → Bytes} (h : Laid L link k H P unit F) {p : ProtoId} {off n : ℕ} {buf W : Bytes}
    (hn : P.length ≤ n)
    (hassemble : ∀ g : Group, g.head = some H → g.data = P →
      g.assemble = if n > MAX_DATAGRAM then none else some W)
    (hW : n ≤ MAX_DATAGRAM → ip_payload p W off = ip_payload p buf off) :
    (∀ fs : List Bytes, fs.Perm ((cuts unit P.length).map F) → ∀ keys : List Key,
        keys.Perm (pushes L link (numbered fs)).groups.keys → PutBack L link p off buf fs keys) ↔
      n ≤ MAX_DATAGRAM := by
  -- Too long, no assembly answers; short enough, every order gives the datagram.
  constructor
  · intro hback
    by_contra hlong
    obtain ⟨frame, heq, -⟩ := hback _ (List.Perm.refl _) _ (List.Perm.refl _)
    have hnone := h.complete_frames_eq (List.Perm.refl _) (fun g hhead hdata => by
      rw [hassemble g hhead hdata, if_pos (by omega)])
      (pushes L link (numbered ((cuts unit P.length).map F))).groups.keys
    rw [heq] at hnone
    exact absurd hnone nofun
  · intro hshort fs hfs keys _
    refine ⟨W, ?_, hW hshort⟩
    apply h.defragment_eq hfs (by omega)
    intro g hhead hdata
    rw [hassemble g hhead hdata, if_neg (by omega)]

/-- **Exactly the datagrams a length field can count are put back.** A frame that is no fragment
itself and is split comes back from its fragments in any order if and only if it holds no more
octets than that: where no usable length bounds it, the frame's own end may put it beyond. -/
theorem put_back_iff (L : Layers) (buf : Bytes) (link p : ProtoId) (fragsize off : ℕ)
    (hip : ip_layer L buf link = some (p, off)) (hnot : inspect L buf link = none)
    (hsplit : 1 < (fragment L buf link fragsize).length)
    (hlocated : ∀ f ∈ fragment L buf link fragsize, ip_layer L f link = some (p, off)) :
    (∀ fs : List Bytes, fs.Perm (fragment L buf link fragsize) → ∀ keys : List Key,
        keys.Perm (pushes L link (numbered fs)).groups.keys → PutBack L link p off buf fs keys) ↔
      ip_length p buf off ≤ MAX_DATAGRAM := by
  by_cases h4 : p = .Ipv4
  · subst h4
    rw [fragment_eq_v4 hip] at hlocated hsplit ⊢
    rcases fragment_v4_cases buf off fragsize with hwhole | ⟨s, hs, hcuts⟩
    · rw [hwhole] at hsplit
      exact absurd hsplit (by simp)
    · rw [hcuts] at hlocated ⊢
      have hpayload := hs.length_payload
      obtain ⟨-, hstart, -⟩ := v4_extent_bounds hs.extent
      have hlength : ip_length .Ipv4 buf off = s.ihl + (payload_v4 buf off s).length := by
        unfold ip_length
        dsimp only
        rw [hs.extent]
        dsimp only [Option.elim_some]
        omega
      have hword : (s.word &&& 0x1fff).toNat * 8 = 0 ∧ decide (s.word &&& 0x2000 ≠ 0) = false := by
        unfold inspect at hnot
        rw [hip] at hnot
        dsimp only at hnot
        unfold inspect_v4 at hnot
        rw [hs.extent] at hnot
        dsimp only at hnot
        rw [← hs.word_eq] at hnot
        by_contra hfragment
        rw [if_neg hfragment] at hnot
        exact absurd hnot nofun
      have hbase : s.word &&& 0x1fff = 0 := UInt16.toNat_inj.1 (show _ = 0 by omega)
      have hmore : s.word &&& 0x2000 = 0 := by simpa using hword.2
      rw [hlength]
      apply (hs.laid hbase hmore hlocated).comes_back_iff (by omega)
      · intro g hhead hdata
        exact hs.assemble hhead hdata
      · intro hshort
        obtain ⟨hextent, hback⟩ := hs.whole_extent hshort
        unfold ip_payload
        dsimp only
        rw [hextent, hs.extent, Option.map_some, Option.map_some, hback]
        rfl
  · by_cases h6 : p = .Ipv6
    · subst h6
      rw [fragment_eq_v6 hip] at hlocated hsplit ⊢
      rcases fragment_v6_cases buf off fragsize with hwhole | ⟨s, hs, hcuts⟩
      · rw [hwhole] at hsplit
        exact absurd hsplit (by simp)
      · rw [hcuts] at hlocated ⊢
        have hpayload := hs.length_payload
        obtain ⟨-, hmin, -, -, hfixed, -⟩ := hs.positions
        have hlength : ip_length .Ipv6 buf off =
            s.fixed - (off + 40) + (payload_v6 buf s).length := by
          unfold ip_length
          dsimp only
          rw [hs.extent]
          dsimp only [Option.elim_some]
          omega
        rw [hlength]
        apply (hs.laid hlocated).comes_back_iff (by omega)
        · intro g hhead hdata
          exact hs.assemble hhead hdata
        · intro hshort
          obtain ⟨hextent, hback⟩ := hs.whole_extent hshort
          unfold ip_payload
          dsimp only
          rw [hextent, hs.extent, Option.map_some, Option.map_some, hback]
    · -- no other layer is an IP layer, and nothing else is split
      have hfragment : fragment L buf link fragsize = [buf] := by
        unfold fragment
        rw [hip]
        split
        · rename_i heq
          exact absurd (Prod.mk.inj (Option.some.inj heq)).1 h4
        · rename_i heq
          exact absurd (Prod.mk.inj (Option.some.inj heq)).1 h6
        · rfl
      rw [hfragment] at hsplit
      exact absurd hsplit (by simp)

/-- The sample's datagram is short enough. -/
theorem put_back_sample :
    PutBack Layers.core .Ether .Ipv4 14 sample_v4 (fragment Layers.core sample_v4 .Ether 8)
      (pushes Layers.core .Ether (numbered (fragment Layers.core sample_v4 .Ether 8))).groups.keys :=
  (put_back_iff Layers.core sample_v4 .Ether .Ipv4 8 14 (by decide +kernel) (by decide +kernel)
    (by decide +kernel)
    (fragment_located_ether Layers.core (fun _ => rfl) (.inl ⟨rfl, by decide +kernel⟩)
      (by decide +kernel) 8)).2 (by decide +kernel) _ (List.Perm.refl _) _ (List.Perm.refl _)

/-- A raw IPv4 datagram handed over by an offloading interface: Total Length is zero, and the frame
is longer than one could say. -/
def long_frame : Bytes :=
  [0x45, 0, 0, 0, 0, 1, 0, 0, 64, 17, 0, 0, 10, 0, 0, 1, 10, 0, 0, 2] ++ List.replicate 65520 0

theorem length_long_frame : long_frame.length = 65540 := by
  rw [long_frame, List.length_append, List.length_replicate]
  rfl

/-- What `split_v4` finds, from what it reads. -/
theorem split_v4_of_read {buf : Bytes} {off fragsize ihl end_ n : ℕ} {word : UInt16}
    (hextent : v4_extent buf off = some (ihl, end_)) (hword : be16 buf (off + 6) = word)
    (hn : (slice buf (off + ihl) end_).length = n) (hwhole : word &&& 0x4000 = 0)
    (hsplit : ¬(min (unit_of fragsize) ((MAX_DATAGRAM - ihl) / 8 * 8) = 0
      ∨ n ≤ min (unit_of fragsize) ((MAX_DATAGRAM - ihl) / 8 * 8)))
    (hoff : ¬(word &&& 0x1fff).toNat + (n - 1) / 8 > 0x1fff) :
    split_v4 buf off fragsize
      = some ⟨ihl, end_, word, min (unit_of fragsize) ((MAX_DATAGRAM - ihl) / 8 * 8)⟩ := by
  unfold split_v4
  rw [hextent]
  dsimp only
  rw [hword, hn, if_neg (not_not.2 hwhole), if_neg hsplit, if_neg hoff]

/-- How the long frame is split. -/
theorem split_long_frame : split_v4 long_frame 0 32768 = some ⟨20, 65540, 0, 32768⟩ := by
  have hlen := length_long_frame
  have hextent : v4_extent long_frame 0 = some (20, 65540) := by
    rw [v4_extent_eq_some_iff, hlen]
    exact ⟨rfl, by decide, rfl⟩
  have hpayload : (slice long_frame (0 + 20) 65540).length = 65520 := length_slice (le_of_eq hlen.symm)
  exact split_v4_of_read hextent rfl hpayload (by decide) (by decide) (by decide)

/-- Past the length a datagram can say it has, the fragments make no datagram. -/
theorem long_frame_lost :
    inspect Layers.core long_frame .Ipv4 = none ∧
      1 < (fragment Layers.core long_frame .Ipv4 32768).length ∧
      ¬ PutBack Layers.core .Ipv4 .Ipv4 0 long_frame
        (fragment Layers.core long_frame .Ipv4 32768)
        (pushes Layers.core .Ipv4
          (numbered (fragment Layers.core long_frame .Ipv4 32768))).groups.keys := by
  -- The datagram is one octet over what fits, so its pieces are laid out but never assembled.
  have hlen := length_long_frame
  have hs := split_v4_eq_some split_long_frame
  have hip : ip_layer Layers.core long_frame .Ipv4 = some (.Ipv4, 0) :=
    ip_layer_raw Layers.core (.inl rfl) rfl (show 20 ≤ long_frame.length by omega)
  have hlocated := fragment_located_raw Layers.core (.inl rfl)
    (show outermost long_frame .Ipv4 = .Ipv4 from rfl) (show 20 ≤ long_frame.length by omega) 32768
  have hpayload : (payload_v4 long_frame 0 ⟨20, 65540, 0, 32768⟩).length = 65520 :=
    hs.length_payload
  have hfragment := (fragment_eq_v4 hip 32768).trans (fragment_v4_of_split split_long_frame)
  refine ⟨?_, ?_, ?_⟩
  · have hword : be16 long_frame (0 + 6) = 0 := rfl
    exact inspect_whole hip (by rw [hword]; rfl) (by rw [hword]; rfl)
  · rw [hfragment, hpayload]
    exact length_cuts_map (by decide) (by decide) _
  · rintro ⟨frame, heq, -⟩
    rw [hfragment] at hlocated heq
    -- All the pieces complete to nothing.
    have hnone := (hs.laid rfl rfl hlocated).complete_frames_eq (List.Perm.refl _)
      (fun g hhead hdata => by
        rw [hs.assemble hhead hdata, hpayload]
        rfl)
      (pushes Layers.core .Ipv4 (numbered (fragment Layers.core long_frame .Ipv4 32768))).groups.keys
    rw [hfragment, heq] at hnone
    exact absurd hnone nofun

end Wiry.Frag
