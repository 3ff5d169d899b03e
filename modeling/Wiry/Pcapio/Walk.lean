/-
`RawPcapNgReader` in `python/wiry/pcapio.py`: what Python reads of a pcapng file beside the Rust
reader's records.

`_walk` looks at each block header once and keeps, under the offset of a packet's data, what the
packet's interface and its block say of it.
-/
import Wiry.Capture.Pcapng

set_option autoImplicit false

namespace Wiry.Pcapio

open Packet Endian Capture Capture.Pcapng

def PCAPNG_MAGIC : Bytes := [0x0a, 0x0d, 0x0d, 0x0a]

/-- Options a block may hold more than once. -/
def REPEATABLE : List UInt16 := [1, 2988, 2989, 19372, 19373]

/-- The options read, by code: every value of a repeatable one in order, the last of any other. -/
abbrev Options := UInt16 → List Bytes

def Options.set (opts : Options) (code : UInt16) (value : Bytes) : Options := fun c =>
  if c = code then if code ∈ REPEATABLE then opts code ++ [value] else [value] else opts c

/-- `_read_options`, `n` turns of the loop from `o` on. -/
def read_options (endian : Bool) (options : Bytes) : ℕ → ℕ → Options → Options
  | 0, _, opts => opts
  | n + 1, o, opts =>
    if o + 4 ≤ options.length then
      match rd16 options o endian, rd16 options (o + 2) endian with
      | some code, some len =>
        if code = OPT_END then opts
        else
          read_options endian options n (o + 4 + pad4 len.toNat)
            (if o + 4 + len.toNat ≤ options.length then
              opts.set code (slice options (o + 4) (o + 4 + len.toNat))
            else opts)
      | _, _ => opts
    else opts

/-- The options of a block: a turn takes four octets at least. -/
def options_of (endian : Bool) (options : Bytes) : Options :=
  read_options endian options options.length 0 fun _ => []

/-- What is kept of an interface block. -/
structure Interface where
  linktype : UInt16
  snaplen : UInt32
  tsresol : ℕ
  name : Option Bytes
  comment : Option Bytes

/-- Ticks a second, with no bound on them. -/
def ticks_per_second (v : UInt8) : ℕ :=
  (if v &&& 128 ≠ 0 then 2 else 10) ^ (v &&& 127).toNat

/-- The resolution the options give: an `if_tsresol` of any other length than one is passed over. -/
def tsresol_of (values : List Bytes) : ℕ :=
  match values with
  | [v] :: _ => ticks_per_second v
  | _ => DEFAULT_TSRESOL

/-- `_idb`: an interface block too short for its fixed fields describes none. -/
def idb (endian : Bool) (body : Bytes) : Option Interface :=
  match rd16 body 0 endian, rd32 body 4 endian with
  | some linktype, some snaplen =>
    let options := options_of endian (body.drop 8)
    some { linktype, snaplen, tsresol := tsresol_of (options 9), name := (options 2).head?,
           comment := (options 1).head? }
  | _, _ => none

/-- Apple's process information. -/
structure Process where
  id : UInt32
  name : Option Bytes
  uuid : Option Bytes

/-- `_pib`. -/
def pib (endian : Bool) (body : Bytes) : Option Process :=
  match rd32 body 0 endian with
  | some id =>
    let options := options_of endian (body.drop 4)
    some { id, name := (options 2).head?,
           uuid := (options 4).head?.filter fun value => value.length = 16 }
  | none => none

/-- What is kept of a record beside its data. -/
structure Metadata where
  linktype : UInt16
  tsresol : ℕ
  tshigh : Option UInt32
  tslow : Option UInt32
  wirelen : UInt32
  comments : Option (List Bytes)
  ifname : Option Bytes
  direction : Option UInt32
  proc : Option Process
  eproc : Option Process

/-- A value of four octets as a word. -/
def word_of (endian : Bool) (values : List Bytes) : Option UInt32 :=
  match values with
  | value :: _ => if value.length = 4 then rd32 value 0 endian else none
  | [] => none

/-- `_packet_block`. -/
def packet_block (endian : Bool) (btype : UInt32) (body : Bytes) (ifaces : List Interface)
    (processes : List Process) : Option Metadata :=
  if body.length < 20 then none
  else
    let id := if btype = BLOCK_PB then (rd16 body 0 endian).map UInt16.toUInt32
      else rd32 body 0 endian
    match id, rd32 body 4 endian, rd32 body 8 endian, rd32 body 12 endian, rd32 body 16 endian with
    | some intid, some tshigh, some tslow, some caplen, some wirelen =>
      match ifaces[intid.toNat]? with
      | none => none
      | some iface =>
        let options := if btype = BLOCK_EPB then options_of endian (body.drop (20 + pad4 caplen.toNat))
          else fun _ => []
        let process (code : UInt16) : Option Process :=
          (word_of endian (options code)).bind fun i => processes[i.toNat]?
        some { linktype := iface.linktype, tsresol := iface.tsresol, tshigh := some tshigh,
               tslow := some tslow, wirelen,
               comments := if options 1 = [] then none else some (options 1),
               ifname := iface.name, direction := (word_of endian (options 2)).map (· &&& 3),
               proc := process 0x8001, eproc := process 0x8003 }
    | _, _, _, _, _ => none

/-- What is kept of a simple packet: it is on the first interface, and has no time. -/
def simple_packet (endian : Bool) (body : Bytes) (ifaces : List Interface) : Option Metadata :=
  match ifaces, rd32 body 0 endian with
  | iface :: _, some wirelen =>
    some { linktype := iface.linktype, tsresol := iface.tsresol, tshigh := none, tslow := none,
           wirelen, comments := none, ifname := none, direction := none, proc := none, eproc := none }
  | _, _ => none

/-! ## The walk -/

structure Walker where
  blob : Bytes
  pos : ℕ
  endian : Bool
  ifaces : List Interface
  process_information : List Process
  metas : ℕ → Option Metadata

/-- `self._meta[k] = …`, where there is something to keep. -/
def Walker.keep (s : Walker) (k : ℕ) : Option Metadata → Walker
  | none => s
  | some e => { s with metas := fun i => if i = k then some e else s.metas i }

def PROCESS_BLOCK : UInt32 := 0x80000001

/-- What a block adds. -/
def Walker.block (s : Walker) (btype : UInt32) (body : Bytes) : Walker :=
  if btype = BLOCK_IDB then { s with ifaces := s.ifaces ++ (idb s.endian body).toList }
  else if btype = BLOCK_PB ∨ btype = BLOCK_EPB then
    s.keep (s.pos + 28) (packet_block s.endian btype body s.ifaces s.process_information)
  else if btype = BLOCK_SPB then s.keep (s.pos + 12) (simple_packet s.endian body s.ifaces)
  else if btype = PROCESS_BLOCK then
    { s with process_information := s.process_information ++ (pib s.endian body).toList }
  else s

/-- A section header's byte order, and the interfaces forgotten. -/
def Walker.enter (s : Walker) : Option Walker :=
  if slice s.blob s.pos (s.pos + 4) = PCAPNG_MAGIC then
    let bom := slice s.blob (s.pos + 8) (s.pos + 12)
    if bom = [0x1a, 0x2b, 0x3c, 0x4d] then some { s with endian := true, ifaces := [] }
    else if bom = [0x4d, 0x3c, 0x2b, 0x1a] then some { s with endian := false, ifaces := [] }
    else none
  else some s

/-- One turn of `_walk`; none where it returns. -/
def Walker.turn (s : Walker) : Option Walker :=
  if s.pos + 12 ≤ s.blob.length then
    match s.enter with
    | none => none
    | some s =>
      match rd32 s.blob s.pos s.endian, rd32 s.blob (s.pos + 4) s.endian with
      | some btype, some declared =>
        let total := pad4 declared.toNat
        if declared.toNat < 12 ∨ s.blob.length < s.pos + total ∨
            rd32 s.blob (s.pos + total - 4) s.endian ≠ some declared then none
        else
          some { s.block btype (slice s.blob (s.pos + 8) (s.pos + total - 4)) with pos := s.pos + total }
      | _, _ => none
  else none

/-- `_walk`, `n` turns of the loop. -/
def Walker.walk : ℕ → Walker → Walker
  | 0, s => s
  | n + 1, s =>
    match s.turn with
    | none => s
    | some s => s.walk n

/-- `pcapng_metadata`: the same walk the readers make. A turn takes twelve octets at least. -/
def pcapng_metadata (blob : Bytes) : ℕ → Option Metadata :=
  (Walker.walk blob.length ⟨blob, 0, false, [], [], fun _ => none⟩).metas

end Wiry.Pcapio
