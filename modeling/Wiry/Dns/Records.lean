/-
The records of a message in `crates/wiry-core/src/layers/dns.rs`: `parse_records`, which
decodes them, and `message_len`, which only finds where they end.

A Rust `String` is a list of characters here; its length and the sizes the budget is
charged are those of a 64-bit target.
-/
import Wiry.Dns.Read
import Wiry.Layers.Text
import Wiry.Packet.Dissect

set_option autoImplicit false

namespace Wiry.Dns

open Packet (Bytes slice slice_checked)
open Text (from_utf8_lossy)

/-! ## Integers and names -/

def be16 (b : Bytes) (off : ℕ) : Option UInt16 :=
  (slice_checked b off (off + 2)).map fun s => Packet.be16 s 0

def be32 (b : Bytes) (off : ℕ) : Option UInt32 :=
  (slice_checked b off (off + 4)).map fun s => Packet.be32 s 0

/-- `render`: every label closed by a dot, a dot or backslash inside one escaped. -/
def render (labels : List Bytes) : List Char :=
  if labels = [] then ['.']
  else labels.flatMap fun l =>
    ((from_utf8_lossy l).flatMap fun c => if c = '.' ∨ c = '\\' then ['\\', c] else [c]) ++ ['.']

def read_name (msg : Bytes) (pos : ℕ) : Option (List Char × ℕ) :=
  (read_labels msg pos).map fun r => (render r.1, r.2)

def read_name_within (msg : Bytes) (pos end_ : ℕ) : Option (List Char × ℕ) :=
  if end_ < pos then none
  else (read_name msg pos).bind fun r => if end_ < r.2 then none else some r

/-! ## Records -/

structure Question where
  qname : List Char
  qtype : UInt16
  qclass : UInt16

structure EdnsOption where
  code : UInt16
  data : Bytes

inductive RData where
  | A (a : Bytes)
  | Aaaa (a : Bytes)
  /-- NS, MD, MF, CNAME, PTR and DNAME. -/
  | Name (n : List Char)
  | Txt (parts : List (List Char))
  | Mx (pref : UInt16) (exchange : List Char)
  | Soa (mname rname : List Char) (serial refresh retry expire minimum : UInt32)
  | Srv (priority weight port : UInt16) (target : List Char)
  | Caa (flags : UInt8) (tag value : List Char)
  | Opt (opts : List EdnsOption)
  | Ds (keytag : UInt16) (algorithm digest_type : UInt8) (digest : Bytes)
  | Rrsig (type_covered : UInt16) (algorithm labels : UInt8) (original_ttl expiration inception : UInt32)
      (keytag : UInt16) (signer : List Char) (signature : Bytes)
  | Nsec (next : List Char) (types : List UInt16)
  | Nsec3 (hash_alg flags : UInt8) (iterations : UInt16) (salt next_hashed : Bytes)
      (types : List UInt16)
  | Nsec3Param (hash_alg flags : UInt8) (iterations : UInt16) (salt : Bytes)
  | Dnskey (flags : UInt16) (protocol algorithm : UInt8) (key : Bytes)
  | Other (raw : Bytes)

structure ResourceRecord where
  rrname : List Char
  rtype : UInt16
  rclass : UInt16
  ttl : UInt32
  rdata : RData

structure Records where
  qd : List Question
  an : List ResourceRecord
  ns : List ResourceRecord
  ar : List ResourceRecord

/-! ## RDATA -/

def decode_srv (msg : Bytes) (start end_ : ℕ) : Option RData :=
  if end_ < start + 6 then none
  else do
    let (target, _) ← read_name_within msg (start + 6) end_
    some (.Srv (← be16 msg start) (← be16 msg (start + 2)) (← be16 msg (start + 4)) target)

def decode_caa (raw : Bytes) : Option RData := do
  let flags ← raw[0]?
  let taglen := (← raw[1]?).toNat
  let tag ← slice_checked raw 2 (2 + taglen)
  let value ← slice_checked raw (2 + taglen) raw.length
  some (.Caa flags (from_utf8_lossy tag) (from_utf8_lossy value))

/-- The loop of `decode_opt`, from octet `i` on. -/
def decode_opt_from (raw : Bytes) (i : ℕ) : Option (List EdnsOption) :=
  if _h : i + 4 ≤ raw.length then do
    let len := (← be16 raw (i + 2)).toNat
    let code ← be16 raw i
    let data ← slice_checked raw (i + 4) (i + 4 + len)
    let rest ← decode_opt_from raw (i + 4 + len)
    some (⟨code, data⟩ :: rest)
  else if i = raw.length then some [] else none
termination_by raw.length - i

def decode_opt (raw : Bytes) : Option (List EdnsOption) := decode_opt_from raw 0

def decode_ds (raw : Bytes) : Option RData := do
  some (.Ds (← be16 raw 0) (← raw[2]?) (← raw[3]?) (← slice_checked raw 4 raw.length))

def decode_dnskey (raw : Bytes) : Option RData := do
  some (.Dnskey (← be16 raw 0) (← raw[2]?) (← raw[3]?) (← slice_checked raw 4 raw.length))

def decode_rrsig (msg : Bytes) (start end_ : ℕ) : Option RData :=
  if end_ < start + 18 then none
  else do
    let (signer, pos) ← read_name_within msg (start + 18) end_
    some (.Rrsig (← be16 msg start) (← msg[start + 2]?) (← msg[start + 3]?) (← be32 msg (start + 4))
      (← be32 msg (start + 8)) (← be32 msg (start + 12)) (← be16 msg (start + 16)) signer
      (← slice_checked msg pos end_))

/-- The types one octet of a window's bitmap names. -/
def bitmap_types (window : UInt16) (k : ℕ) (b : UInt8) : List UInt16 :=
  (List.range 8).filterMap fun bit =>
    if b &&& (0x80 >>> UInt8.ofNat bit) ≠ 0 then some (window <<< 8 ||| UInt16.ofNat (k * 8 + bit)) else none

/-- The loop of `decode_type_bitmap`, from octet `i` on. -/
def decode_type_bitmap_from (raw : Bytes) (i : ℕ) : Option (List UInt16) :=
  if _h : i + 2 ≤ raw.length then
    let window := (raw.getD i 0).toUInt16
    let len := (raw.getD (i + 1) 0).toNat
    if len = 0 ∨ 32 < len then none
    else do
      let bits ← slice_checked raw (i + 2) (i + 2 + len)
      let rest ← decode_type_bitmap_from raw (i + 2 + len)
      some ((bits.zipIdx.flatMap fun b => bitmap_types window b.2 b.1) ++ rest)
  else if i = raw.length then some [] else none
termination_by raw.length - i

def decode_type_bitmap (raw : Bytes) : Option (List UInt16) := decode_type_bitmap_from raw 0

def decode_nsec (msg : Bytes) (start end_ : ℕ) : Option RData := do
  let (next, pos) ← read_name_within msg start end_
  some (.Nsec next (← decode_type_bitmap (← slice_checked msg pos end_)))

/-- The four fields and the salt NSEC3 and NSEC3PARAM share, and the offset past them. -/
def nsec3_prefix (raw : Bytes) : Option (UInt8 × UInt8 × UInt16 × Bytes × ℕ) := do
  let saltlen := (← raw[4]?).toNat
  let salt ← slice_checked raw 5 (5 + saltlen)
  some (raw.getD 0 0, raw.getD 1 0, ← be16 raw 2, salt, 5 + saltlen)

def decode_nsec3 (raw : Bytes) : Option RData := do
  let (hash_alg, flags, iterations, salt, pos) ← nsec3_prefix raw
  let hashlen := (← raw[pos]?).toNat
  let start := pos + 1
  let next_hashed ← slice_checked raw start (start + hashlen)
  let types ← decode_type_bitmap (← slice_checked raw (start + hashlen) raw.length)
  some (.Nsec3 hash_alg flags iterations salt next_hashed types)

def decode_nsec3param (raw : Bytes) : Option RData := do
  let (hash_alg, flags, iterations, salt, pos) ← nsec3_prefix raw
  if pos ≠ raw.length then none else some (.Nsec3Param hash_alg flags iterations salt)

/-- The loop of `decode_txt`, from octet `i` on. -/
def decode_txt_from (raw : Bytes) (i : ℕ) : Option (List (List Char)) :=
  match _h : raw[i]? with
  | none => some []
  | some len => do
    let s ← slice_checked raw (i + 1) (i + 1 + len.toNat)
    let rest ← decode_txt_from raw (i + 1 + len.toNat)
    some (from_utf8_lossy s :: rest)
termination_by raw.length - i
decreasing_by
  have hlt := (List.getElem?_eq_some_iff.1 _h).1
  omega

def decode_txt (raw : Bytes) : Option (List (List Char)) := decode_txt_from raw 0

def decode_soa (msg : Bytes) (start end_ : ℕ) : Option RData := do
  let (mname, pos) ← read_name_within msg start end_
  let (rname, pos) ← read_name_within msg pos end_
  if end_ < pos + 20 then none
  else
    some (.Soa mname rname (← be32 msg pos) (← be32 msg (pos + 4)) (← be32 msg (pos + 8))
      (← be32 msg (pos + 12)) (← be32 msg (pos + 16)))

/-- `decode_mx`, inline in `decode_rdata`. -/
def decode_mx (msg : Bytes) (start end_ : ℕ) : Option RData := do
  let pref ← be16 msg start
  let (exchange, _) ← read_name_within msg (start + 2) end_
  some (.Mx pref exchange)

namespace rtype

def A : UInt16 := 1
def NS : UInt16 := 2
def MD : UInt16 := 3
def MF : UInt16 := 4
def CNAME : UInt16 := 5
def SOA : UInt16 := 6
def PTR : UInt16 := 12
def MX : UInt16 := 15
def TXT : UInt16 := 16
def AAAA : UInt16 := 28
def SRV : UInt16 := 33
def DNAME : UInt16 := 39
def OPT : UInt16 := 41
def DS : UInt16 := 43
def RRSIG : UInt16 := 46
def NSEC : UInt16 := 47
def DNSKEY : UInt16 := 48
def NSEC3 : UInt16 := 50
def NSEC3PARAM : UInt16 := 51
def CAA : UInt16 := 257

end rtype

/-- What RDATA of a known type decodes to, where it does. -/
def decode_known (msg : Bytes) (t : UInt16) (start end_ : ℕ) : Option RData :=
  let raw := slice msg start end_
  if t = rtype.A then if raw.length = 4 then some (.A raw) else none
  else if t = rtype.AAAA then if raw.length = 16 then some (.Aaaa raw) else none
  else if t ∈ [rtype.NS, rtype.MD, rtype.MF, rtype.CNAME, rtype.PTR, rtype.DNAME] then
    (read_name_within msg start end_).map fun r => .Name r.1
  else if t = rtype.MX then decode_mx msg start end_
  else if t = rtype.TXT then (decode_txt raw).map .Txt
  else if t = rtype.SOA then decode_soa msg start end_
  else if t = rtype.SRV then decode_srv msg start end_
  else if t = rtype.CAA then decode_caa raw
  else if t = rtype.OPT then (decode_opt raw).map .Opt
  else if t = rtype.DS then decode_ds raw
  else if t = rtype.RRSIG then decode_rrsig msg start end_
  else if t = rtype.NSEC then decode_nsec msg start end_
  else if t = rtype.NSEC3 then decode_nsec3 raw
  else if t = rtype.NSEC3PARAM then decode_nsec3param raw
  else if t = rtype.DNSKEY then decode_dnskey raw
  else none

/-- `decode_rdata`: RDATA that does not decode is kept as it is. -/
def decode_rdata (msg : Bytes) (t : UInt16) (start end_ : ℕ) : RData :=
  (decode_known msg t start end_).getD (.Other (slice msg start end_))

/-! ## The budget -/

def MAX_DECODED_NAME_BYTES : ℕ := 256 * 1024

/-- `size_of::<String>()`. -/
def SIZE_OF_STRING : ℕ := 24

/-- `size_of::<EdnsOption>()`. -/
def SIZE_OF_EDNS_OPTION : ℕ := 32

/-- `str::len`. -/
def str_len (s : List Char) : ℕ := (s.map Char.utf8Size).sum

/-- What a record's RDATA is charged. -/
def rdata_bytes : RData → ℕ
  | .Name n => str_len n
  | .Mx _ exchange => str_len exchange
  | .Soa mname rname _ _ _ _ _ => str_len mname + str_len rname
  | .Txt parts => (parts.map fun t => str_len t + SIZE_OF_STRING).sum
  | .Srv _ _ _ target => str_len target
  | .Caa _ tag value => str_len tag + str_len value
  | .Opt opts => (opts.map fun o => o.data.length + SIZE_OF_EDNS_OPTION).sum
  | .Ds _ _ _ digest => digest.length
  | .Rrsig _ _ _ _ _ _ _ signer signature => str_len signer + signature.length
  | .Nsec next types => str_len next + 2 * types.length
  | .Nsec3 _ _ _ salt next_hashed types => salt.length + next_hashed.length + 2 * types.length
  | .Nsec3Param _ _ _ salt => salt.length
  | .Dnskey _ _ _ key => key.length
  | .A _ | .Aaaa _ | .Other _ => 0

def decoded_name_bytes (rr : ResourceRecord) : ℕ := str_len rr.rrname + rdata_bytes rr.rdata

/-! ## Decoding -/

def read_question (msg : Bytes) (pos : ℕ) : Option (Question × ℕ) := do
  let (qname, pos) ← read_name msg pos
  let qtype ← be16 msg pos
  let qclass ← be16 msg (pos + 2)
  some (⟨qname, qtype, qclass⟩, pos + 4)

def read_rr (msg : Bytes) (pos : ℕ) : Option (ResourceRecord × ℕ) := do
  let (rrname, pos) ← read_name msg pos
  let t ← be16 msg pos
  let rclass ← be16 msg (pos + 2)
  let ttl ← be32 msg (pos + 4)
  let rdlength := (← be16 msg (pos + 8)).toNat
  let rdstart := pos + 10
  let rdend := rdstart + rdlength
  if msg.length < rdend then none
  else some (⟨rrname, t, rclass, ttl, decode_rdata msg t rdstart rdend⟩, rdend)

/-- What a counted loop of `parse_records` has taken: the items, the offset behind the last
and the budget left, and whether it took as many as it was told to. -/
structure Taken (α : Type) where
  items : List α
  pos : ℕ
  budget : ℕ
  full : Bool

/-- A loop of `parse_records`: at most `n` items, each charged its cost. -/
def take_items {α : Type} (read : ℕ → Option (α × ℕ)) (cost : α → ℕ) : ℕ → ℕ → ℕ → Taken α
  | 0, pos, budget => ⟨[], pos, budget, true⟩
  | n + 1, pos, budget =>
    match read pos with
    | none => ⟨[], pos, budget, false⟩
    | some (x, next) =>
      if budget < cost x then ⟨[], pos, budget, false⟩
      else
        let t := take_items read cost n next (budget - cost x)
        { t with items := x :: t.items }

/-- The four counts of a header. -/
structure Counts where
  qd : ℕ
  an : ℕ
  ns : ℕ
  ar : ℕ

def header_counts (msg : Bytes) : Option Counts := do
  some ⟨(← be16 msg 4).toNat, (← be16 msg 6).toNat, (← be16 msg 8).toNat, (← be16 msg 10).toNat⟩

/-- One section, where the ones before it were taken in full. -/
def take_section {α : Type} (msg : Bytes) (n : ℕ) (before : Taken α) : Taken ResourceRecord :=
  if before.full then take_items (read_rr msg) decoded_name_bytes n before.pos before.budget
  else ⟨[], before.pos, before.budget, false⟩

/-- The records of a message, and the offset behind the last one decoded. -/
def parse_from (msg : Bytes) (counts : Counts) : Records × ℕ :=
  let qd := take_items (read_question msg) (fun q => str_len q.qname) counts.qd 12 MAX_DECODED_NAME_BYTES
  let an := take_section msg counts.an qd
  let ns := take_section msg counts.ns an
  let ar := take_section msg counts.ar ns
  (⟨qd.items, an.items, ns.items, ar.items⟩, ar.pos)

/-- `parse_records`, and where it stopped: at the header's start for want of a header. -/
def parse_walk (msg : Bytes) : Records × ℕ :=
  match header_counts msg with
  | none => (⟨[], [], [], []⟩, 0)
  | some counts => parse_from msg counts

def parse_records (msg : Bytes) : Records := (parse_walk msg).1

/-- Where the last record `parse_records` decodes ended. -/
def records_end (msg : Bytes) : ℕ := (parse_walk msg).2

/-! ## Framing -/

/-- `n` steps of a walk. -/
def skip_items (skip : ℕ → Option ℕ) : ℕ → ℕ → Option ℕ
  | 0, pos => some pos
  | n + 1, pos => (skip pos).bind (skip_items skip n)

def skip_question (msg : Bytes) (pos : ℕ) : Option ℕ := do
  let pos := (← skip_name msg pos) + 4
  if msg.length < pos then none else some pos

def skip_rr (msg : Bytes) (pos : ℕ) : Option ℕ := do
  let pos ← skip_name msg pos
  let rdlength := (← be16 msg (pos + 8)).toNat
  let pos := pos + (10 + rdlength)
  if msg.length < pos then none else some pos

def message_len (msg : Bytes) : Option ℕ := do
  let counts ← header_counts msg
  let pos ← skip_items (skip_question msg) counts.qd 12
  skip_items (skip_rr msg) (counts.an + counts.ns + counts.ar) pos

def header_len (msg : Bytes) : ℕ := (message_len msg).getD msg.length

end Wiry.Dns
