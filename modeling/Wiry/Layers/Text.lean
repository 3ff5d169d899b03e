/-
`crates/wiry-core/src/layers/text.rs` as far as the message framer uses it: lines,
header blocks and the field lines in them.

A Rust `String` is a list of characters here. The standard library's functions
it is read with (`from_utf8_lossy`, `trim`, `contains` and the ASCII cases) keep
their names.
-/
import Wiry.Packet.Spans
import Mathlib.Data.List.Infix

set_option autoImplicit false

namespace Wiry.Text

open Wiry.Packet (Bytes)

def LF : UInt8 := 10
def CR : UInt8 := 13

/-- The octets of ASCII text. -/
def word (cs : List Char) : Bytes := cs.map fun c => UInt8.ofNat c.toNat

/-! ## Strings -/

/-- `u8::is_ascii_whitespace`. -/
def is_ascii_whitespace (b : UInt8) : Bool := b == 32 || b == 9 || b == 10 || b == 12 || b == 13

/-- `u8::is_ascii_digit`. -/
def is_ascii_digit (b : UInt8) : Bool := 48 ≤ b && b ≤ 57

/-- `u8::is_ascii_hexdigit`. -/
def is_ascii_hexdigit (b : UInt8) : Bool :=
  is_ascii_digit b || (65 ≤ b && b ≤ 70) || (97 ≤ b && b ≤ 102)

/-- `char::is_whitespace`. -/
def is_whitespace (c : Char) : Bool :=
  let n := c.toNat
  (9 ≤ n && n ≤ 13) || n == 0x20 || n == 0x85 || n == 0xA0 || n == 0x1680 ||
    (0x2000 ≤ n && n ≤ 0x200A) || n == 0x2028 || n == 0x2029 || n == 0x202F || n == 0x205F ||
    n == 0x3000

/-- `str::trim`. -/
def str_trim (s : List Char) : List Char :=
  ((s.dropWhile is_whitespace).reverse.dropWhile is_whitespace).reverse

/-- `str::to_ascii_lowercase`. -/
def to_ascii_lowercase (s : List Char) : List Char := s.map Char.toLower

/-- `str::eq_ignore_ascii_case`. -/
def eq_ignore_ascii_case (s t : List Char) : Bool := to_ascii_lowercase s == to_ascii_lowercase t

/-- `str::contains`. -/
def contains (s pat : List Char) : Bool := s.tails.any fun t => pat.isPrefixOf t

/-- What a UTF-8 lead octet announces: how many octets follow it, and the bounds of the first. -/
def utf8_lead (b : UInt8) : Option (ℕ × UInt8 × UInt8) :=
  if b < 0x80 then some (0, 0x80, 0xBF)
  else if b < 0xC2 then none
  else if b < 0xE0 then some (1, 0x80, 0xBF)
  else if b = 0xE0 then some (2, 0xA0, 0xBF)
  else if b = 0xED then some (2, 0x80, 0x9F)
  else if b < 0xF0 then some (2, 0x80, 0xBF)
  else if b = 0xF0 then some (3, 0x90, 0xBF)
  else if b < 0xF4 then some (3, 0x80, 0xBF)
  else if b = 0xF4 then some (3, 0x80, 0x8F)
  else none

/-- How many of the next `n` octets continue the sequence. -/
def utf8_tail : ℕ → UInt8 → UInt8 → Bytes → ℕ
  | n + 1, lo, hi, b :: rest => if lo ≤ b ∧ b ≤ hi then utf8_tail n 0x80 0xBF rest + 1 else 0
  | _, _, _, _ => 0

/-- The scalar value of a lead octet and the octets that follow it. -/
def utf8_scalar (b : UInt8) (tail : Bytes) : ℕ :=
  match tail with
  | [] => b.toNat
  | tail => tail.foldl (fun n c => n * 64 + c.toNat % 64) (b.toNat % 2 ^ (6 - tail.length))

/-- `String::from_utf8_lossy`: an ill-formed sequence becomes one U+FFFD, as far as it was well
formed. -/
def from_utf8_lossy : Bytes → List Char
  | [] => []
  | b :: rest =>
    match utf8_lead b with
    | none => Char.ofNat 0xFFFD :: from_utf8_lossy rest
    | some (n, lo, hi) =>
      let k := utf8_tail n lo hi rest
      (if k = n then Char.ofNat (utf8_scalar b (rest.take n)) else Char.ofNat 0xFFFD) ::
        from_utf8_lossy (rest.drop k)
termination_by b => b.length
decreasing_by
  · simp
  · rw [List.length_drop, List.length_cons]
    omega

/-- ASCII is decoded octet by octet. -/
theorem from_utf8_lossy_ascii {b : Bytes} (h : ∀ c ∈ b, c < 0x80) :
    from_utf8_lossy b = b.map fun c => Char.ofNat c.toNat := by
  induction b with
  | nil => rw [from_utf8_lossy, List.map_nil]
  | cons c rest ih =>
    have hlead : utf8_lead c = some (0, 0x80, 0xBF) := if_pos (h c List.mem_cons_self)
    rw [from_utf8_lossy, hlead]
    dsimp only
    rw [utf8_tail, if_pos rfl, List.drop_zero, ih fun c' hc' => h c' (List.mem_cons_of_mem _ hc')]
    · rfl
    · intro _ _ _ hn
      exact absurd hn nofun

/-! ## Lines -/

/-- `trim`: ASCII whitespace off both ends. -/
def trim (b : Bytes) : Bytes :=
  ((b.dropWhile is_ascii_whitespace).reverse.dropWhile is_ascii_whitespace).reverse

/-- The carriage return a line ends in is not part of it. -/
def strip_cr (line : Bytes) : Bytes := if line.getLast? = some CR then line.dropLast else line

/-- The offset of the next line feed. -/
def next_lf (data : Bytes) : Option ℕ := data.findIdx? (· == LF)

theorem next_lf_lt {data : Bytes} {p : ℕ} (h : next_lf data = some p) : p < data.length :=
  (List.findIdx?_eq_some_iff_findIdx_eq.1 h).1

/-- Behind a line there is less. -/
theorem length_drop_lf {data : Bytes} {p : ℕ} (h : next_lf data = some p) :
    (data.drop (p + 1)).length < data.length := by
  have := next_lf_lt h
  rw [List.length_drop]
  omega

/-- A line feed already there stays the next one. -/
theorem next_lf_append {data : Bytes} {p : ℕ} (h : next_lf data = some p) (e : Bytes) :
    next_lf (data ++ e) = some p := by
  unfold next_lf at h ⊢
  rw [List.findIdx?_append, h]
  rfl

/-- A line, its feed and what follows. -/
theorem next_lf_line {line : Bytes} (h : LF ∉ line) (rest : Bytes) :
    next_lf (line ++ LF :: rest) = some line.length := by
  unfold next_lf
  have hnone : line.findIdx? (· == LF) = none := by
    rw [List.findIdx?_eq_none_iff]
    intro c hc
    simpa using fun heq : c = LF => h (heq ▸ hc)
  rw [List.findIdx?_append, hnone, List.findIdx?_cons]
  simp

/-- The loop of `lines`, at most `n` lines of it. -/
def lines_up_to : ℕ → Bytes → List Bytes
  | 0, _ => []
  | n + 1, data =>
    match next_lf data with
    | some p => strip_cr (data.take p) :: lines_up_to n (data.drop (p + 1))
    -- a final unterminated line counts
    | none => if data.isEmpty then [] else [data]

/-- `lines`: at most 256 lines, terminators removed. -/
def lines (data : Bytes) : List Bytes := lines_up_to 256 data

/-- `header_block`: the offset just past the blank line that ends a header block. -/
def header_block (data : Bytes) : Option ℕ :=
  match _h : next_lf data with
  | none => none
  | some p =>
    if (strip_cr (data.take p)).isEmpty then some (p + 1)
    else (header_block (data.drop (p + 1))).map (p + 1 + ·)
termination_by data.length
decreasing_by exact length_drop_lf ‹_›

theorem header_block_of_lf {data : Bytes} {p : ℕ} (h : next_lf data = some p) :
    header_block data = if (strip_cr (data.take p)).isEmpty then some (p + 1)
      else (header_block (data.drop (p + 1))).map (p + 1 + ·) := by
  rw [header_block]
  split
  · rename_i hnone
    exact absurd (h.symm.trans hnone) nofun
  · rename_i p' hp'
    obtain rfl : p = p' := Option.some.inj (h.symm.trans hp')
    rfl

theorem header_block_of_none {data : Bytes} (h : next_lf data = none) : header_block data = none := by
  rw [header_block]
  split
  · rfl
  · rename_i p' hp'
    exact absurd (h.symm.trans hp') nofun

/-- A block that has ended ends where it did, whatever follows, and inside what is there. -/
theorem header_block_append {data : Bytes} {n : ℕ} (h : header_block data = some n) (e : Bytes) :
    header_block (data ++ e) = some n ∧ 0 < n ∧ n ≤ data.length := by
  rcases hp : next_lf data with - | p
  · rw [header_block_of_none hp] at h
    exact absurd h nofun
  · have hlt := next_lf_lt hp
    have htake : (data ++ e).take p = data.take p := List.take_append_of_le_length hlt.le
    have hdrop : (data ++ e).drop (p + 1) = data.drop (p + 1) ++ e :=
      List.drop_append_of_le_length hlt
    rw [header_block_of_lf hp] at h
    rw [header_block_of_lf (next_lf_append hp e), htake, hdrop]
    by_cases hblank : (strip_cr (data.take p)).isEmpty = true
    · rw [if_pos hblank] at h ⊢
      obtain rfl : p + 1 = n := Option.some.inj h
      exact ⟨rfl, Nat.succ_pos p, hlt⟩
    · rw [if_neg hblank] at h ⊢
      obtain ⟨m, hm, rfl⟩ := Option.map_eq_some_iff.1 h
      obtain ⟨hmore, hpos, hle⟩ := header_block_append hm e
      rw [hmore]
      rw [List.length_drop] at hle
      exact ⟨rfl, by omega, by omega⟩
termination_by data.length
decreasing_by exact length_drop_lf hp

/-! ## Field lines -/

/-- `Item`, whose value is always text here. -/
structure Item where
  name : List Char
  code : ℕ
  value : List Char
deriving DecidableEq, Repr

/-- The loop of `canonical`. -/
def canonical_from : Bool → Bytes → List Char
  | _, [] => []
  | upper, c :: rest =>
    let c := Char.ofNat c.toNat
    (if upper then c.toUpper else c.toLower) :: canonical_from (c == '-') rest

/-- `canonical`: field names are case-insensitive, so each is given one spelling. -/
def canonical (name : Bytes) : List Char := canonical_from true name

/-- `item`. -/
def item (name : List Char) (code : ℕ) (v : Bytes) : Item := ⟨name, code, from_utf8_lossy v⟩

/-- The item a line that continues no other is read as. -/
def field_item (line : Bytes) : Item :=
  match line.findIdx? (· == 58) with
  | some i => item (canonical (line.take i)) 0 (trim (line.drop (i + 1)))
  | none => item ['U', 'n', 's', 't', 'r', 'u', 'c', 't', 'u', 'r', 'e', 'd'] 0 line

/-- An obs-fold continuation is joined onto the line it continues. -/
def fold_onto (out : List Item) (line : Bytes) : List Item :=
  match out.getLast? with
  | some last =>
    let c := trim line
    if c.isEmpty then out
    else
      let gap := if last.value.isEmpty then [] else [' ']
      out.dropLast ++ [{ last with value := last.value ++ gap ++ from_utf8_lossy c }]
  | none => out

/-- The loop of `header_items`. -/
def header_items_from (out : List Item) : List Bytes → List Item
  | [] => out
  | line :: rest =>
    if line.isEmpty then out
    else if line.head? = some 32 ∨ line.head? = some 9 then
      header_items_from (fold_onto out line) rest
    else header_items_from (out ++ [field_item line]) rest

/-- `header_items`. -/
def header_items (block : Bytes) : List Item := header_items_from [] (lines block)

/-- `message_headers`: the field lines of a message, past its start line. -/
def message_headers (msg : Bytes) : List Item :=
  header_items (msg.drop ((next_lf msg).elim msg.length (· + 1)))

/-- `message_field`. -/
def message_field (fields : List Item) (name : List Char) : Option (List Char) :=
  fields.findSome? fun f => if eq_ignore_ascii_case f.name name then some (str_trim f.value) else none

end Wiry.Text
