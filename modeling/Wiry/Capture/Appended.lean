/-
What appending keeps: reading the file gives the old records and the new ones exactly where the
walk over the old file ends with it, at the writer's resolution.

The old file is walked to its end in any case. Where the walk ends with the
file, the records behind it are read as they were written (`pcap_keeps` and its
pcapng counterpart); where it ends inside, they are not reached, or not as
records. The two formats differ in what may stop a walk, and share what is said
of the octets behind it.
-/
import Wiry.Capture.CutOff

set_option autoImplicit false

namespace Wiry.Capture

open Packet Endian Pcapng

section Records

variable {held : Bytes} {nanos : Bool} {header : Pcap.FileHeader}

theorem pcap_read (hkind : is_pcapng held = false) (hparse : Pcap.parse_header held = .ok header) :
    read_pcap held = some (header.nanos, Pcap.Reader.collect ⟨held, 24, header⟩) := by
  unfold read_pcap
  rw [if_neg (by rw [hkind]; exact Bool.false_ne_true), Pcap.Reader.new, hparse]

theorem pcap_read_append (hkind : is_pcapng held = false)
    (hparse : Pcap.parse_header held = .ok header) (more : Bytes) :
    read_pcap (held ++ more) = some (header.nanos, Pcap.Reader.collect ⟨held ++ more, 24, header⟩) := by
  obtain ⟨hgrown, hlen⟩ := parse_header_append more hparse
  exact pcap_read ((is_pcapng_append more (by omega)).trans hkind) hgrown

/-- Where the walk ends with the file, what is written behind it is read. -/
theorem pcap_keeps (hkind : is_pcapng held = false) (hparse : Pcap.parse_header held = .ok header)
    (hnanos : header.nanos = nanos) (hswapped : header.swapped = false) (hends : Pcap.WalkEnds held)
    (recs : List (Captured nanos)) :
    Keeps held (held ++ recs.flatMap fun w => encode false nanos w.toWritten) recs := by
  -- The old records end where the file does, so the reader behind them stands at its end.
  obtain ⟨r, olds, r', hnew, hwalk, hoff⟩ := hends
  rw [Pcap.Reader.new, hparse] at hnew
  rw [← Except.ok.inj hnew] at hwalk
  obtain ⟨hcollect, hheader, hbuf, -, -, hgrown⟩ := pcap_collect_walk hwalk
  obtain ⟨more, hmore⟩ : ∃ m, m = recs.flatMap fun w => encode false nanos w.toWritten := ⟨_, rfl⟩
  have hlast : r'.collect = [] := by
    apply Pcap.Reader.collect_of_none
    have hend : r'.off + 16 > r'.buf.length := by
      rw [hbuf]
      show _ > held.length
      omega
    unfold Pcap.Reader.next
    exact if_pos hend
  have hdata : ∀ w ∈ (recs.map Captured.measured).map Captured.toWritten, w.data.length < 2 ^ 32 := by
    intro w hw
    obtain ⟨c, -, rfl⟩ := List.mem_map.1 hw
    have hle := c.data_le
    have hmax : MAX_CAPLEN = 4294967256 := rfl
    omega
  -- From there the appended octets are read as the records written.
  have hlater : Pcap.Reader.collect { r' with buf := r'.buf ++ more }
      = ((recs.map Captured.measured).map Captured.toWritten).map Pcap.Written.record := by
    have hbehind : r'.buf ++ more = held ++ ((recs.map Captured.measured).map Captured.toWritten).flatMap
        fun w => Pcap.write_record_in r'.header.swapped w.ts_sec w.ts_frac w.data w.origlen := by
      rw [hbuf, hheader, hswapped, hmore, List.map_map, List.flatMap_map]
      rfl
    exact Pcap.collect_written hdata hbehind hoff
  refine ⟨header.nanos, olds, ((recs.map Captured.measured).map Captured.toWritten).map
    Pcap.Written.record, ?_, ?_, ?_⟩
  · rw [pcap_read hkind hparse, hcollect, hlast, List.append_nil]
  · rw [pcap_read_append hkind hparse, ← hmore, ← hlater]
    exact congrArg (fun l => some (header.nanos, l)) (hgrown more)
  · rw [List.map_map (f := Captured.toWritten), hnanos]
    exact records_measured nanos recs

/-- A walk that stops short takes octets of the first record written for its data. -/
theorem pcap_walk_ends (hkind : is_pcapng held = false)
    (hparse : Pcap.parse_header held = .ok header)
    (h : ∀ recs : List (Captured nanos),
      Keeps held (held ++ recs.flatMap fun w => encode false nanos w.toWritten) recs) :
    Pcap.WalkEnds held := by
  obtain ⟨olds, r', hwalk, hnone⟩ := pcap_walk_stops ⟨held, 24, header⟩
  obtain ⟨hcollect, hheader, hbuf, -, hin, hgrown⟩ := pcap_collect_walk hwalk
  have hlen := (parse_header_append [] hparse).2
  have hle : r'.off ≤ held.length := by
    have h' := hin hlen
    rwa [hbuf] at h'
  refine ⟨_, olds, r', by rw [Pcap.Reader.new, hparse], hwalk, ?_⟩
  by_contra hshort
  -- one octet of data, and not the one that stands sixteen octets behind where the walk stopped
  obtain ⟨words, hwords⟩ : ∃ ws : Bytes, ws = le32 0 ++ le32 0 ++ le32 1 ++ le32 1 := ⟨_, rfl⟩
  obtain ⟨octet, hoctet⟩ : ∃ c, c = (held ++ words)[r'.off + 16]?.getD 0 := ⟨_, rfl⟩
  obtain ⟨d, hd⟩ : ∃ d : UInt8, d ≠ octet := by
    by_cases hzero : octet = 0
    · exact ⟨1, by rw [hzero]; decide⟩
    · exact ⟨0, Ne.symm hzero⟩
  have hwlen : words.length = 16 := by
    rw [hwords]
    rfl
  have hres : (0 : UInt32).toNat < resolution nanos := by
    cases nanos <;> decide
  obtain ⟨w, hw⟩ : ∃ w : Captured nanos, w.toWritten = ⟨0, 0, [d], 1⟩ :=
    ⟨⟨⟨0, 0, [d], 1⟩, hres, show 1 ≤ MAX_CAPLEN by decide⟩, rfl⟩
  have hencode : ([w].flatMap fun w => encode false nanos w.toWritten) = words ++ [d] := by
    rw [List.flatMap_cons, List.flatMap_nil, List.append_nil, hw, hwords]
    rfl
  obtain ⟨scale, olds', news, hread, hread', hnews⟩ := h [w]
  rw [pcap_read hkind hparse, hcollect, Pcap.Reader.collect_of_none hnone, List.append_nil,
    Option.some.injEq, Prod.mk.injEq] at hread
  rw [hencode, pcap_read_append hkind hparse, hgrown, hread.2, Option.some.injEq, Prod.mk.injEq] at hread'
  have hlater := List.append_cancel_left hread'.2
  have hdatas : news.map Record.data = [[d]] := by
    have hfst := congrArg (List.map Prod.fst) hnews
    rw [List.map_map, List.map_cons, List.map_nil, List.map_cons, List.map_nil, hw] at hfst
    exact hfst
  rw [← hlater] at hdatas
  cases hnext : Pcap.Reader.next { r' with buf := r'.buf ++ (words ++ [d]) } with
  | none =>
    rw [Pcap.Reader.collect_of_none hnext] at hdatas
    cases hdatas
  | some p =>
    obtain ⟨rec, g⟩ := p
    rw [Pcap.Reader.collect_of_some hnext, List.map_cons] at hdatas
    have hdata := (List.cons.inj hdatas).1
    unfold Pcap.Reader.next at hnext
    dsimp only at hnext
    split at hnext
    · cases hnext
    · split at hnext
      · cases hnext
      · rename_i hfit
        have hpair := Option.some.inj hnext
        rw [Prod.mk.injEq] at hpair
        rw [← hpair.1, hbuf] at hdata
        dsimp only at hdata
        have hfirst := congrArg (fun l : Bytes => l[0]?) hdata
        rw [slice_getElem?, List.getElem?_cons_zero] at hfirst
        split at hfirst
        · rw [Nat.add_zero, ← List.append_assoc, List.getElem?_append_left] at hfirst
          · have hsame : octet = d := by
              rw [hoctet]
              show ((held ++ words)[r'.off + 16]?).getD 0 = d
              rw [hfirst]
              rfl
            exact hd hsame.symm
          · show _ < (held ++ words).length
            rw [List.length_append]
            omega
        · cases hfirst

end Records

section Sections

variable {held : Bytes} {nanos scale : Bool} {linktype snaplen : UInt32} {olds : List Record}

theorem pcapng_read_append (hkind : is_pcapng held = true) (hread : read_pcap held = some (scale, olds))
    (hends : Pcapng.WalkEnds held) (hlink : linktype.toNat < 2 ^ 16) (recs : List (Captured nanos)) :
    read_pcap (held ++ (write_shb ++ write_idb linktype snaplen nanos) ++
        recs.flatMap fun w => encode true nanos w.toWritten)
      = some (scale, olds ++ (recs.map Captured.measured).map fun w => w.toWritten.record) := by
  rw [List.append_assoc held, appended_section linktype snaplen hlink, ← records_written]
  exact read_appended _ hkind hread hends

theorem pcapng_keeps (hkind : is_pcapng held = true) (hread : read_pcap held = some (nanos, olds))
    (hends : Pcapng.WalkEnds held) (hlink : linktype.toNat < 2 ^ 16) (recs : List (Captured nanos)) :
    Keeps held (held ++ (write_shb ++ write_idb linktype snaplen nanos) ++
      recs.flatMap fun w => encode true nanos w.toWritten) recs :=
  ⟨nanos, olds, _, hread, pcapng_read_append hkind hread hends hlink recs, records_measured nanos recs⟩

/-- What is kept of a record written behind a pcapng file is its fraction, read at the file's scale. -/
theorem pcapng_time (hkind : is_pcapng held = true) (hread : read_pcap held = some (scale, olds))
    (hends : Pcapng.WalkEnds held) (hlink : linktype.toNat < 2 ^ 16) {w : Captured nanos}
    (h : Keeps held (held ++ (write_shb ++ write_idb linktype snaplen nanos) ++
      [w].flatMap fun w => encode true nanos w.toWritten) [w]) :
    time_at scale w.ts_sec w.ts_frac = time_at nanos w.ts_sec w.ts_frac := by
  obtain ⟨scale', olds', news, hread', hfile, hnews⟩ := h
  rw [hread, Option.some.injEq, Prod.mk.injEq] at hread'
  obtain ⟨hscale, holds⟩ := hread'
  subst hscale holds
  rw [pcapng_read_append hkind hread hends hlink, Option.some.injEq, Prod.mk.injEq] at hfile
  rw [← List.append_cancel_left hfile.2, records_measured, List.map_cons, List.map_nil, List.map_cons,
    List.map_nil] at hnews
  exact congrArg Prod.snd (List.cons.inj hnews).1

/-- Behind a file of the other resolution a record that is not on the second is read at another
time. -/
theorem pcapng_scale (hkind : is_pcapng held = true) (hread : read_pcap held = some (scale, olds))
    (hends : Pcapng.WalkEnds held) (hlink : linktype.toNat < 2 ^ 16)
    (h : ∀ recs : List (Captured nanos), Keeps held (held ++ (write_shb ++ write_idb linktype snaplen nanos) ++
      recs.flatMap fun w => encode true nanos w.toWritten) recs) : scale = nanos := by
  have hres : (1 : UInt32).toNat < resolution nanos := by
    cases nanos <;> decide
  obtain ⟨w, hw⟩ : ∃ w : Captured nanos, w.toWritten = ⟨0, 1, [], 0⟩ :=
    ⟨⟨⟨0, 1, [], 0⟩, hres, Nat.zero_le _⟩, rfl⟩
  have htime := pcapng_time hkind hread hends hlink (h [w])
  rw [hw] at htime
  revert htime
  cases scale <;> cases nanos
  · exact fun _ => rfl
  · intro htime
    exact absurd htime (by decide +kernel)
  · intro htime
    exact absurd htime (by decide +kernel)
  · exact fun _ => rfl

/-- **A walk that stops short is never shown all that is written behind it**: of two records it is
shown one at most. -/
theorem pcapng_walk_ends (hkind : is_pcapng held = true) (hlink : linktype.toNat < 2 ^ 16)
    (hlen : held.length % 4 = 0)
    (h : ∀ recs : List (Captured nanos), Keeps held (held ++ (write_shb ++ write_idb linktype snaplen nanos) ++
      recs.flatMap fun w => encode true nanos w.toWritten) recs) : Pcapng.WalkEnds held := by
  have hres : (0 : UInt32).toNat < resolution nanos := by
    cases nanos <;> decide
  obtain ⟨w, hw⟩ : ∃ w : Captured nanos, w.toWritten = ⟨0, 0, [], 0⟩ :=
    ⟨⟨⟨0, 0, [], 0⟩, hres, Nat.zero_le _⟩, rfl⟩
  obtain ⟨scale, olds, news, hread, hfile, hnews⟩ := h [w, w]
  rw [List.append_assoc held, probe_eq snaplen nanos hlink hw] at hfile
  obtain ⟨more, hmore⟩ : ∃ m, m = (probe_words linktype snaplen nanos).flatMap le32 := ⟨_, rfl⟩
  rw [← hmore] at hfile
  obtain ⟨swapped, r₀, hopens⟩ := opens_of_read hkind hread
  obtain ⟨recs, r, d, hwalk, hstop⟩ := walk_stops (Reader.opening held swapped) none
  have hopening : Grown held more none (Reader.opening held swapped)
      (Reader.opening (held ++ more) swapped) :=
    ⟨⟨rfl, rfl, rfl, rfl⟩, ⟨rfl, rfl, rfl, rfl⟩, rfl, rfl, rfl⟩
  obtain ⟨g, hg, hcollect, hcollect'⟩ := walk_grown hwalk hopening
  obtain ⟨haligned, hle⟩ := walk_aligned hwalk rfl (Nat.zero_le _)
  rw [hg.old.buf_eq] at hle
  -- what is read behind the old records is what was written
  have hlater : g.collect.length = 2 := by
    obtain ⟨g₀, henter, hg₀⟩ := enter_section_grown hopening hopens.enters
    have hopens' := hopens.grown more henter
    have hold := hopens.read
    have hnew := hopens'.read
    rw [hread, Option.some.injEq, Prod.mk.injEq] at hold
    rw [hfile, Option.some.injEq, Prod.mk.injEq] at hnew
    rw [hcollect, Reader.collect_of_stop hg.old.going hstop, List.append_nil] at hold
    rw [hcollect', ← hold.2] at hnew
    rw [← List.append_cancel_left hnew.2]
    have hcount := congrArg List.length hnews
    rw [List.length_map, List.length_map] at hcount
    exact hcount
  have hgoes : g.step ≠ .stop := by
    intro hg'
    rw [Reader.collect_of_stop hg.new.going hg'] at hlater
    cases hlater
  by_cases hoff : r.off = held.length
  · refine ⟨swapped, recs, r, d, hopens.order_eq, hwalk, hoff, fun e he => ?_⟩
    by_contra hshort
    apply hgoes
    have hend := hg.new.end_eq
    rw [Option.mem_def.1 he] at hend
    have hmin : extent (some e) (held ++ more).length ≤ e := Nat.min_le_left _ _
    have hpast : g.off + 12 > g.end_ := by
      rw [hend, hg.new.off_eq]
      omega
    unfold Reader.step
    exact if_pos hpast
  · exfalso
    subst hmore
    have hin : r.off < held.length := by omega
    cases hstep : g.step with
    | stop => exact hgoes hstep
    | skip g' =>
      have hstops := stops_inside hlink hg hstop (Or.inl hstep) hlen haligned hin
      have hgoing : g'.done = false := (Reader.step_done (Or.inl hstep)).trans hg.new.going
      rw [Reader.collect_of_skip hg.new.going hgoing hstep, Reader.collect_of_stop hgoing hstops] at hlater
      cases hlater
    | yield rec g' =>
      have hstops := stops_inside hlink hg hstop (Or.inr ⟨rec, hstep⟩) hlen haligned hin
      have hgoing : g'.done = false := (Reader.step_done (Or.inr ⟨rec, hstep⟩)).trans hg.new.going
      rw [Reader.collect_of_yield hg.new.going hstep, Reader.collect_of_stop hgoing hstops] at hlater
      cases hlater

end Sections

/-- **Appending keeps both captures exactly where the walk over the old one ends with it**, and for
pcapng where its header reads the times at the writer's resolution. -/
theorem append_keeps_iff (t : Target) (pcapng : Bool) (linktype snaplen : UInt32) (nanos : Bool)
    (held head : Bytes) (hopens : (read_pcap held).isSome)
    (haccept : CaptureWriter.new t pcapng linktype snaplen nanos held = .ok head) :
    (∀ recs : List (Captured nanos),
      Keeps held (held ++ head ++ recs.flatMap fun w => encode pcapng nanos w.toWritten) recs) ↔
      Appendable held nanos := by
  obtain ⟨hkind, hsections, hrecords⟩ := accepted_of_new hopens haccept
  unfold Appendable
  cases pcapng with
  | true =>
    obtain ⟨rfl, hlink, hlen⟩ := hsections rfl
    obtain ⟨⟨scale, olds⟩, hread⟩ := Option.isSome_iff_exists.1 hopens
    rw [if_pos hkind, hread, Option.map_some]
    constructor
    -- In a section the unit must be the one of the section's interface, and the walk must reach the
    -- end.
    · intro h
      have hends := pcapng_walk_ends hkind hlink hlen h
      exact ⟨hends, congrArg some (pcapng_scale hkind hread hends hlink h)⟩
    · rintro ⟨hends, hscale⟩ recs
      cases Option.some.inj hscale
      exact pcapng_keeps hkind hread hends hlink recs
  -- In a pcap the unit is compared when opening, so only the walk's end is left.
  | false =>
    obtain ⟨rfl, header, hparse, hnanos, hswapped⟩ := hrecords rfl
    rw [if_neg (by rw [hkind]; exact Bool.false_ne_true), List.append_nil]
    constructor
    · exact pcap_walk_ends hkind hparse
    · exact pcap_keeps hkind hparse hnanos hswapped

/-- A frame of four octets, seven microseconds behind the second. -/
def early_frame : Captured false where
  ts_sec := 1700000000
  ts_frac := 7
  data := [1, 2, 3, 4]
  origlen := 0
  frac_lt := by decide
  data_le := by decide

/-- A capture of Ethernet frames with one frame in it. -/
def one_frame : Bytes := Pcap.write_header 1 65535 false ++ encode false false early_frame.toWritten

/-- What is appended to a capture of one frame is kept behind it. -/
theorem append_keeps_behind :
    Keeps one_frame (one_frame ++ [] ++ [early_frame].flatMap fun w => encode false false w.toWritten)
      [early_frame] := by
  have hends : Pcap.WalkEnds one_frame :=
    ⟨⟨one_frame, 24, ⟨false, false, 65535, 1⟩⟩, [_], _, by rfl, .next (by rfl) (.here _), by decide⟩
  exact (append_keeps_iff .path false 1 65535 false one_frame [] (by decide) (by rfl)).2 hends [early_frame]

/-- The same frame in a pcapng file, whose interface counts microseconds. -/
def one_section : Bytes :=
  write_shb ++ write_idb 1 65535 false ++ encode true false early_frame.toWritten

/-- A frame five hundred nanoseconds behind the second. -/
def late_frame : Captured true where
  ts_sec := 1700000001
  ts_frac := 500
  data := [5, 6, 7, 8]
  origlen := 0
  frac_lt := by decide
  data_le := by decide

/-- **A frame appended with a nanosecond fraction to a microsecond capture is read back five hundred
microseconds behind the second.** -/
theorem other_unit_misread :
    (read_pcap one_section).isSome ∧
      CaptureWriter.new .path true 1 65535 true one_section =
        .ok (write_shb ++ write_idb 1 65535 true) ∧
      ¬Keeps one_section (one_section ++ (write_shb ++ write_idb 1 65535 true) ++
        [late_frame].flatMap fun w => encode true true w.toWritten) [late_frame] := by
  -- The section is whole and in microseconds, and the writer takes it for nanoseconds all the same.
  have hkind : is_pcapng one_section = true := by decide
  have hscale : (read_pcap one_section).map Prod.fst = some false := by decide +kernel
  obtain ⟨⟨scale, olds⟩, hread, hfst⟩ := Option.map_eq_some_iff.1 hscale
  have hends : Pcapng.WalkEnds one_section :=
    ⟨false, [_], _, _, by decide, .enter (by decide) (by rfl) (.skip (by decide) (by rfl)
      (.yield (by rfl) (.here _ _))), by decide, by decide⟩
  have haccept : (CaptureWriter.new .path true 1 65535 true one_section).toOption =
      some (write_shb ++ write_idb 1 65535 true) := by decide +kernel
  refine ⟨?_, ?_, ?_⟩
  · rw [hread]
    rfl
  · cases hnew : CaptureWriter.new .path true 1 65535 true one_section with
    | error e =>
      rw [hnew] at haccept
      cases haccept
    | ok head =>
      rw [hnew] at haccept
      rw [Option.some.inj haccept]
  · intro hkeeps
    -- were everything kept, the record's time would agree with the old unit
    have htime := pcapng_time hkind hread hends (by decide) hkeeps
    rw [show scale = false from hfst] at htime
    exact absurd htime (by decide +kernel)

end Wiry.Capture
