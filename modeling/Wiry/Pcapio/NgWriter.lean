/-
`RawPcapNgWriter` of `python/wiry/pcapio.py`: the blocks it builds, an interface block in front of
the first packet under each new name.

A time is a whole count of microseconds, handed over as the exact rational where Python has the
nearest double. The rational stands for the counts below `2 ^ 51`, the years up to 2041: there the two
roundings of the double are less than half a count together, and `round` comes back to the count. Above
it a double may be written one count off. `none` is `struct.error`: a number that its field does not
hold.
-/
import Wiry.Capture.RoundTrip
import Wiry.Pcapio.Walk
import Wiry.Pcapio.Writer

set_option autoImplicit false

namespace Wiry.Pcapio

open Packet Endian Capture Capture.Pcapng Rounding

/-- A packet as `write_packet` finds it, no comments being an empty list of them. -/
structure Outgoing where
  octets : Bytes
  /-- Microseconds since the epoch. -/
  micros : ℤ
  wirelen : ℕ
  sniffed_on : Option Bytes
  linktype : Option ℕ
  direction : Option ℤ
  comments : List Bytes
  captured_le : octets.length ≤ wirelen

/-- `packet.time`. -/
def Outgoing.time (p : Outgoing) : ℚ := p.micros / 1000000

namespace RawPcapNgWriter

/-- `struct.pack` of an `H`. -/
def pack_H (v : ℕ) : Option Bytes := if v < 2 ^ 16 then some (le16 (UInt16.ofNat v)) else none

/-- `build_block`: options are laid behind the padding. -/
def build_block (block_type : UInt32) (block_body options : Bytes) : Option Bytes :=
  let block_body := padded block_body ++ options
  (pack_I ↑(12 + block_body.length)).map fun total => le32 block_type ++ total ++ block_body ++ total

/-- An option: code, length and the padded value. -/
def option (code : UInt16) (value : Bytes) : Option Bytes :=
  (pack_H value.length).map fun len => le16 code ++ len ++ padded value

def end_of_options : Bytes := le16 0 ++ le16 0

/-- `_write_block_shb`: the section length is -1. -/
def _write_block_shb : Option Bytes :=
  build_block BLOCK_SHB ([0x4d, 0x3c, 0x2b, 0x1a] ++ le16 1 ++ le16 0 ++ List.replicate 8 0xff) []

/-- `_write_block_idb`: the name is the only option. -/
def _write_block_idb (linktype : ℕ) (ifname : Option Bytes) : Option Bytes :=
  (pack_H linktype).bind fun linktype =>
  (match ifname with
    | none => some []
    | some name => (option 2 name).map (· ++ end_of_options)).bind fun opts =>
  build_block BLOCK_IDB (linktype ++ le16 0 ++ le32 262144) opts

/-- `int(round(timestamp * self.tsresol)) if timestamp else 0`. -/
def ticks_of (timestamp : ℚ) : ℤ := if timestamp = 0 then 0 else half_even (timestamp * 1000000)

/-- The options of a packet: its comments and its flags. -/
def epb_options (comments : List Bytes) (flags : Option ℤ) : Option Bytes :=
  (comments.mapM (option 1)).bind fun comments =>
  (match flags with
    | none => some []
    | some flags => (pack_I flags).map fun flags => le16 2 ++ le16 4 ++ flags).map fun flags =>
  let opts := comments.flatten ++ flags
  if opts.isEmpty then [] else opts ++ end_of_options

/-- `_write_block_epb`: a length of zero is none. -/
def _write_block_epb (raw_pkt : Bytes) (ifid : ℕ) (timestamp : ℚ) (caplen orglen : ℕ)
    (comments : List Bytes) (flags : Option ℤ) : Option Bytes :=
  let ticks := ticks_of timestamp
  (pack_I ifid).bind fun ifid =>
  (pack_I (ticks / 2 ^ 32 % 2 ^ 32)).bind fun high =>
  (pack_I (ticks % 2 ^ 32)).bind fun low =>
  (pack_I ↑(if caplen = 0 then raw_pkt.length else caplen)).bind fun caplen =>
  (pack_I ↑(if orglen = 0 then raw_pkt.length else orglen)).bind fun orglen =>
  (epb_options comments flags).bind fun opts =>
  build_block BLOCK_EPB (ifid ++ high ++ low ++ caplen ++ orglen ++ raw_pkt) opts

end RawPcapNgWriter

/-- A writer past its header: the interfaces by name, and the octets written. -/
structure RawPcapNgWriter where
  linktype : ℕ
  interfaces2id : List (Option Bytes × ℕ)
  f : Bytes

namespace RawPcapNgWriter

/-- The link type a packet is written with, a class without one (or with zero) having the file's:
`_linktype_of(packet) or self.linktype`. -/
def linktype_for (file : ℕ) (p : Outgoing) : ℕ :=
  match p.linktype with
  | some linktype => if linktype = 0 then file else linktype
  | none => file

/-- The id of an interface name, a new one getting its own interface block. -/
def interface (w : RawPcapNgWriter) (linktype : ℕ) (ifname : Option Bytes) :
    Option (RawPcapNgWriter × ℕ) :=
  match w.interfaces2id.lookup ifname with
  | some ifid => some (w, ifid)
  | none =>
    let ifid := (w.interfaces2id.map Prod.snd).foldl max 0 + 1
    (_write_block_idb linktype ifname).map fun block =>
      ({ w with interfaces2id := w.interfaces2id ++ [(ifname, ifid)], f := w.f ++ block }, ifid)

/-- `write_packet` and `_write_packet`. -/
def write_packet (w : RawPcapNgWriter) (p : Outgoing) : Option RawPcapNgWriter :=
  let caplen := p.octets.length
  let wirelen := if p.wirelen = 0 then caplen else p.wirelen
  let flags := p.direction.map (· % 4)
  (w.interface (linktype_for w.linktype p) p.sniffed_on).bind fun (w, ifid) =>
  (_write_block_epb p.octets ifid p.time caplen wirelen p.comments flags).map fun block =>
    { w with f := w.f ++ block }

/-- `write_header`: the first packet gives the file its link type, Ethernet where there is none. -/
def write_header (first : Option Outgoing) : Option RawPcapNgWriter :=
  let linktype := (first.bind Outgoing.linktype).getD 1
  _write_block_shb.bind fun head =>
  (_write_block_idb linktype none).map fun iface =>
    { linktype, interfaces2id := [(none, 0)], f := head ++ iface }

/-- The file that a sequence of packets is written to. -/
def write_file (ps : List Outgoing) : Option Bytes :=
  (write_header ps.head?).bind fun w => (ps.foldlM write_packet w).map RawPcapNgWriter.f

end RawPcapNgWriter

/-! ## What is packed -/

namespace RawPcapNgWriter

theorem pack_I_some {v : ℤ} {b : Bytes} (h : pack_I v = some b) :
    0 ≤ v ∧ v < 2 ^ 32 ∧ b = le32 (UInt32.ofNat v.toNat) := by
  unfold pack_I at h
  split at h
  · rename_i hin
    exact ⟨hin.1, hin.2, (Option.some.inj h).symm⟩
  · cases h

theorem pack_I_natCast {v : ℕ} {b : Bytes} (h : pack_I v = some b) :
    v < 2 ^ 32 ∧ b = le32 (UInt32.ofNat v) := by
  obtain ⟨-, hlt, rfl⟩ := pack_I_some h
  refine ⟨?_, by rw [Int.toNat_natCast]⟩
  have hcast : ((2 ^ 32 : ℕ) : ℤ) = 2 ^ 32 := by norm_num
  rw [← hcast] at hlt
  exact Int.ofNat_lt.1 hlt

/-- What is packed in two. -/
theorem pack_H_some {v : ℕ} {b : Bytes} (h : pack_H v = some b) :
    v < 2 ^ 16 ∧ b = le16 (UInt16.ofNat v) := by
  unfold pack_H at h
  split at h
  · rename_i hin
    exact ⟨hin, (Option.some.inj h).symm⟩
  · cases h

/-- An option that fits, by its octets. -/
def encode_option (o : UInt16 × Bytes) : Bytes :=
  le16 o.1 ++ le16 (UInt16.ofNat o.2.length) ++ padded o.2

theorem option_some {code : UInt16} {value b : Bytes} (h : option code value = some b) :
    value.length < 2 ^ 16 ∧ b = encode_option (code, value) := by
  obtain ⟨len, hlen, rfl⟩ := Option.map_eq_some_iff.1 h
  obtain ⟨hsmall, rfl⟩ := pack_H_some hlen
  exact ⟨hsmall, rfl⟩

theorem length_encode_option (o : UInt16 × Bytes) :
    (encode_option o).length = 4 + pad4 o.2.length := by
  unfold encode_option
  rw [List.length_append, List.length_append, length_le16, length_le16, length_padded]

/-- Options that are written fit their sixteen bits of length. -/
theorem mapM_option_some {code : UInt16} {values parts : List Bytes}
    (h : values.mapM (option code) = some parts) :
    (∀ v ∈ values, v.length < 2 ^ 16) ∧
      parts.flatten = (values.map fun v => (code, v)).flatMap encode_option := by
  induction values generalizing parts with
  | nil =>
    cases h
    exact ⟨nofun, rfl⟩
  | cons v values ih =>
    rw [List.mapM_cons] at h
    obtain ⟨part, hpart, h⟩ := Option.bind_eq_some_iff.1 h
    obtain ⟨parts', hparts, h⟩ := Option.bind_eq_some_iff.1 h
    cases h
    obtain ⟨hsmall, rfl⟩ := option_some hpart
    obtain ⟨hall, hflat⟩ := ih hparts
    refine ⟨List.forall_mem_cons.2 ⟨hsmall, hall⟩, ?_⟩
    rw [List.flatten_cons, hflat]
    rfl

/-- The options of a block, ended where there are any. -/
def encode_options (os : List (UInt16 × Bytes)) : Bytes :=
  if os.isEmpty then [] else os.flatMap encode_option ++ end_of_options

/-- Codes that say something, values that fit. -/
def Fit (os : List (UInt16 × Bytes)) : Prop := ∀ o ∈ os, o.1 ≠ OPT_END ∧ o.2.length < 2 ^ 16

theorem codes : (1 : UInt16) ≠ OPT_END ∧ (2 : UInt16) ≠ OPT_END := by decide

/-- Options are padded to words, and there are no more of them than octets. -/
theorem length_encode_options (os : List (UInt16 × Bytes)) :
    (encode_options os).length % 4 = 0 ∧ os.length ≤ (encode_options os).length := by
  have hflat : (os.flatMap encode_option).length % 4 = 0 ∧
      os.length ≤ (os.flatMap encode_option).length := by
    induction os with
    | nil => exact ⟨rfl, le_rfl⟩
    | cons o os ih =>
      rw [List.flatMap_cons, List.length_append, length_encode_option, List.length_cons, pad4]
      omega
  unfold encode_options
  cases os with
  | nil => exact ⟨rfl, le_rfl⟩
  | cons o os =>
    -- the end marker is one more word
    have hend : end_of_options.length = 4 := rfl
    rw [if_neg nofun, List.length_append, hend]
    omega

/-- What the options of a packet say. -/
def options_for (comments : List Bytes) (flags : Option ℤ) : List (UInt16 × Bytes) :=
  comments.map (fun c => (1, c)) ++
    flags.toList.map fun flags => (2, le32 (UInt32.ofNat flags.toNat))

/-- The options of a packet block: the comments, then the flags. -/
theorem epb_options_some {comments : List Bytes} {flags : Option ℤ} {opts : Bytes}
    (h : epb_options comments flags = some opts) :
    Fit (options_for comments flags) ∧ opts = encode_options (options_for comments flags) := by
  obtain ⟨parts, hparts, h⟩ := Option.bind_eq_some_iff.1 h
  obtain ⟨flag, hflag, rfl⟩ := Option.map_eq_some_iff.1 h
  obtain ⟨hsmall, hflat⟩ := mapM_option_some hparts
  have hcomments : Fit (comments.map fun c => ((1 : UInt16), c)) := by
    intro o ho
    obtain ⟨c, hc, rfl⟩ := List.mem_map.1 ho
    exact ⟨codes.1, hsmall c hc⟩
  have hflags : Fit (flags.toList.map fun flags => ((2 : UInt16), le32 (UInt32.ofNat flags.toNat))) ∧
      flag = (flags.toList.map fun flags =>
        ((2 : UInt16), le32 (UInt32.ofNat flags.toNat))).flatMap encode_option := by
    cases flags with
    | none =>
      cases hflag
      exact ⟨nofun, rfl⟩
    | some v =>
      obtain ⟨word, hword, rfl⟩ := Option.map_eq_some_iff.1 hflag
      obtain ⟨-, -, rfl⟩ := pack_I_some hword
      have hlen : (le32 (UInt32.ofNat v.toNat)).length = 4 := length_le32 _
      refine ⟨?_, ?_⟩
      · intro o ho
        rw [List.mem_singleton.1 ho]
        exact ⟨codes.2, by dsimp only; rw [hlen]; decide⟩
      · -- the flags are a word, which needs no padding
        show _ = encode_option (2, le32 (UInt32.ofNat v.toNat)) ++ []
        unfold encode_option padded
        dsimp only
        rw [hlen, List.append_nil]
        simp [pad4]
  have hopts : parts.flatten ++ flag = (options_for comments flags).flatMap encode_option := by
    rw [options_for, List.flatMap_append, hflat, hflags.2]
  refine ⟨?_, ?_⟩
  · intro o ho
    rcases List.mem_append.1 ho with ho | ho
    · exact hcomments o ho
    · exact hflags.1 o ho
  · dsimp only
    rw [hopts]
    unfold encode_options
    cases options_for comments flags with
    | nil => rfl
    | cons o os => rfl

/-! ## Blocks -/

/-- A block that was built is one that reads as it was laid out. -/
theorem build_block_some {block_type : UInt32} {body options out : Bytes}
    (haligned : options.length % 4 = 0) (h : build_block block_type body options = some out) :
    ∃ b : Block, b.btype = block_type ∧ b.body = padded body ++ options ∧ out = b.encode false := by
  unfold build_block at h
  dsimp only at h
  obtain ⟨total, htotal, rfl⟩ := Option.map_eq_some_iff.1 h
  obtain ⟨hsmall, rfl⟩ := pack_I_natCast htotal
  have hpadded : (padded body ++ options).length % 4 = 0 := by
    rw [List.length_append, length_padded, pad4]
    omega
  exact ⟨⟨block_type, padded body ++ options, hpadded, hsmall⟩, rfl, rfl, rfl⟩

/-- The words a packet block starts with. -/
def epb_words (ifid : ℕ) (ticks : ℤ) (caplen orglen : ℕ) : List UInt32 :=
  [UInt32.ofNat ifid, UInt32.ofNat (ticks / 2 ^ 32 % 2 ^ 32).toNat, UInt32.ofNat (ticks % 2 ^ 32).toNat,
    UInt32.ofNat caplen, UInt32.ofNat orglen]

/-- What the packet block holds when it is written at all; the guards are those of `struct.pack`. -/
theorem epb_some {raw_pkt : Bytes} {ifid : ℕ} {timestamp : ℚ} {caplen orglen : ℕ}
    {comments : List Bytes} {flags : Option ℤ} {out : Bytes} (hcap : caplen = raw_pkt.length)
    (horg : raw_pkt.length ≤ orglen)
    (h : _write_block_epb raw_pkt ifid timestamp caplen orglen comments flags = some out) :
    Fit (options_for comments flags) ∧ ifid < 2 ^ 32 ∧ orglen < 2 ^ 32 ∧
      ∃ b : Block, b.btype = BLOCK_EPB ∧ out = b.encode false ∧
        b.body = padded ((epb_words ifid (ticks_of timestamp) caplen orglen).flatMap le32 ++ raw_pkt) ++
          encode_options (options_for comments flags) := by
  -- a length of zero stands for none, and is then the one it would have been taken for
  have hcap' : (if caplen = 0 then raw_pkt.length else caplen) = caplen := by
    split <;> omega
  have horg' : (if orglen = 0 then raw_pkt.length else orglen) = orglen := by
    split <;> omega
  unfold _write_block_epb at h
  dsimp only at h
  rw [hcap', horg'] at h
  obtain ⟨w₁, h₁, h⟩ := Option.bind_eq_some_iff.1 h
  obtain ⟨w₂, h₂, h⟩ := Option.bind_eq_some_iff.1 h
  obtain ⟨w₃, h₃, h⟩ := Option.bind_eq_some_iff.1 h
  obtain ⟨w₄, h₄, h⟩ := Option.bind_eq_some_iff.1 h
  obtain ⟨w₅, h₅, h⟩ := Option.bind_eq_some_iff.1 h
  obtain ⟨opts, hopts, h⟩ := Option.bind_eq_some_iff.1 h
  obtain ⟨hid, rfl⟩ := pack_I_natCast h₁
  obtain ⟨-, -, rfl⟩ := pack_I_some h₂
  obtain ⟨-, -, rfl⟩ := pack_I_some h₃
  obtain ⟨-, rfl⟩ := pack_I_natCast h₄
  obtain ⟨hlen, rfl⟩ := pack_I_natCast h₅
  obtain ⟨hfit, rfl⟩ := epb_options_some hopts
  obtain ⟨b, htype, hbody, hout⟩ := build_block_some (length_encode_options _).1 h
  refine ⟨hfit, hid, hlen, b, htype, hout, ?_⟩
  rw [hbody]
  simp only [epb_words, List.flatMap_cons, List.flatMap_nil, List.append_nil,
    List.append_assoc]

/-- The options of an interface. -/
def name_option (ifname : Option Bytes) : List (UInt16 × Bytes) := ifname.toList.map fun n => (2, n)

/-- What the interface block holds when it is written at all. -/
theorem idb_some {linktype : ℕ} {ifname : Option Bytes} {out : Bytes}
    (h : _write_block_idb linktype ifname = some out) :
    Fit (name_option ifname) ∧ linktype < 2 ^ 16 ∧
      ∃ b : Block, b.btype = BLOCK_IDB ∧ out = b.encode false ∧
        b.body = le16 (UInt16.ofNat linktype) ++ le16 0 ++ le32 262144 ++
          encode_options (name_option ifname) := by
  -- Each part was packed, so it fits its field.
  obtain ⟨word, hword, h⟩ := Option.bind_eq_some_iff.1 h
  obtain ⟨opts, hopts, h⟩ := Option.bind_eq_some_iff.1 h
  obtain ⟨hlink, rfl⟩ := pack_H_some hword
  have hname : Fit (name_option ifname) ∧ opts = encode_options (name_option ifname) := by
    cases ifname with
    | none =>
      cases hopts
      exact ⟨nofun, rfl⟩
    | some name =>
      obtain ⟨part, hpart, rfl⟩ := Option.map_eq_some_iff.1 hopts
      obtain ⟨hsmall, rfl⟩ := option_some hpart
      refine ⟨?_, ?_⟩
      · intro o ho
        rw [List.mem_singleton.1 ho]
        exact ⟨codes.2, hsmall⟩
      · show _ = (encode_option (2, name) ++ []) ++ end_of_options
        rw [List.append_nil]
  obtain ⟨b, htype, hbody, hout⟩ := build_block_some (hname.2 ▸ (length_encode_options _).1) h
  refine ⟨hname.1, hlink, b, htype, hout, ?_⟩
  -- The fixed words fill whole units and need no padding.
  have hwhole : padded (le16 (UInt16.ofNat linktype) ++ le16 0 ++ le32 262144) =
      le16 (UInt16.ofNat linktype) ++ le16 0 ++ le32 262144 := by
    unfold padded
    simp [pad4]
  rw [hbody, hwhole, hname.2]

/-! ## What a packet adds to the file -/

/-- A name seen before keeps its number; a new one is described first and takes the next number. -/
theorem interface_some {w w' : RawPcapNgWriter} {linktype ifid : ℕ} {ifname : Option Bytes}
    (h : w.interface linktype ifname = some (w', ifid)) :
    w.interfaces2id.lookup ifname = some ifid ∧ w' = w ∨
      w.interfaces2id.lookup ifname = none ∧ ifid = (w.interfaces2id.map Prod.snd).foldl max 0 + 1 ∧
        ∃ block, _write_block_idb linktype ifname = some block ∧
          w' = { w with
            interfaces2id := w.interfaces2id ++ [(ifname, ifid)], f := w.f ++ block } := by
  unfold interface at h
  cases hlookup : w.interfaces2id.lookup ifname with
  | some id =>
    rw [hlookup] at h
    obtain ⟨rfl, rfl⟩ := Prod.mk.inj (Option.some.inj h)
    exact .inl ⟨rfl, rfl⟩
  | none =>
    rw [hlookup] at h
    obtain ⟨block, hblock, h⟩ := Option.map_eq_some_iff.1 h
    obtain ⟨rfl, rfl⟩ := Prod.mk.inj h
    exact .inr ⟨rfl, rfl, block, hblock, rfl⟩

/-- A packet is written behind its interface. -/
theorem write_packet_some {w w' : RawPcapNgWriter} {p : Outgoing} (h : w.write_packet p = some w') :
    ∃ w₁ ifid block, w.interface (linktype_for w.linktype p) p.sniffed_on = some (w₁, ifid) ∧
      _write_block_epb p.octets ifid p.time p.octets.length p.wirelen p.comments
        (p.direction.map (· % 4)) = some block ∧
      w' = { w₁ with f := w₁.f ++ block } := by
  have hwire : (if p.wirelen = 0 then p.octets.length else p.wirelen) = p.wirelen := by
    have hle := p.captured_le
    split <;> omega
  unfold write_packet at h
  dsimp only at h
  rw [hwire] at h
  obtain ⟨⟨w₁, ifid⟩, hiface, h⟩ := Option.bind_eq_some_iff.1 h
  obtain ⟨block, hblock, h⟩ := Option.map_eq_some_iff.1 h
  exact ⟨w₁, ifid, block, hiface, hblock, h.symm⟩

/-- A packet is written behind what is there, and the file keeps its link type. -/
theorem write_packet_extends {w w' : RawPcapNgWriter} {p : Outgoing} (h : w.write_packet p = some w') :
    (∃ more, w'.f = w.f ++ more) ∧ w'.linktype = w.linktype := by
  obtain ⟨w₁, ifid, block, hiface, -, rfl⟩ := write_packet_some h
  rcases interface_some hiface with ⟨-, rfl⟩ | ⟨-, -, iface, -, rfl⟩
  · exact ⟨⟨block, rfl⟩, rfl⟩
  · exact ⟨⟨iface ++ block, List.append_assoc _ _ _⟩, rfl⟩

/-- Writing only appends. -/
theorem foldlM_extends {ps : List Outgoing} {w w' : RawPcapNgWriter}
    (h : ps.foldlM write_packet w = some w') : ∃ more, w'.f = w.f ++ more := by
  induction ps generalizing w with
  | nil =>
    cases h
    exact ⟨[], (List.append_nil _).symm⟩
  | cons p ps ih =>
    rw [List.foldlM_cons] at h
    obtain ⟨w₁, hw₁, h⟩ := Option.bind_eq_some_iff.1 h
    obtain ⟨more₁, hmore₁⟩ := (write_packet_extends hw₁).1
    obtain ⟨more, hmore⟩ := ih h
    exact ⟨more₁ ++ more, by rw [hmore, hmore₁, List.append_assoc]⟩

/-- A microsecond count is its own number of ticks. -/
theorem ticks_of_time (p : Outgoing) : ticks_of p.time = p.micros := by
  have hexact : (p.micros : ℚ) / 1000000 * 1000000 = p.micros := by
    rw [div_mul_cancel₀]
    norm_num
  unfold ticks_of Outgoing.time
  split
  · rename_i hzero
    have hmicros : (p.micros : ℚ) = 0 := by
      rw [← hexact, hzero, zero_mul]
    exact_mod_cast hmicros.symm
  · rw [hexact, half_even_intCast]

end RawPcapNgWriter

end Wiry.Pcapio
