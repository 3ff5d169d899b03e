/-
Pipelined HTTP/1.1 requests: a grammar of requests, and that the framer cuts a
run of them where each ends. The bounds the source sets on what it reads of one
request are `Request.WithinBounds`.
-/
import Mathlib.Data.List.TakeWhile
import Wiry.Lib.Bits
import Wiry.Stream.Messages

set_option autoImplicit false

namespace Wiry.Stream

open Wiry.Packet Wiry.Text

/-! ## A grammar of requests -/

/-- An octet of a token: no separator, no whitespace and no control. -/
def is_token (b : UInt8) : Bool :=
  is_ascii_digit b || (65 ≤ b && b ≤ 90) || (97 ≤ b && b ≤ 122) ||
    [33, 35, 36, 37, 38, 39, 42, 43, 45, 46, 94, 95, 96, 124, 126].contains b

/-- Octets that do not end a line. -/
def InLine (b : Bytes) : Prop := ∀ c ∈ b, c ≠ CR ∧ c ≠ LF

instance (b : Bytes) : Decidable (InLine b) := List.decidableBAll _ b

def CRLF : Bytes := [CR, LF]

/-- A field line, its value with the whitespace around it. -/
structure Field where
  name : Bytes
  value : Bytes
  name_ne : name ≠ []
  name_ok : ∀ c ∈ name, is_token c = true
  value_ok : InLine value

def Field.line (f : Field) : Bytes := f.name ++ 58 :: f.value

/-- Field lines, each with its end. -/
def encode_fields (fs : List Field) : Bytes := fs.flatMap fun f => f.line ++ CRLF

/-- A field's name is matched without regard to case. -/
def Field.Is (f : Field) (name : List Char) : Prop :=
  to_ascii_lowercase (f.name.map fun c => Char.ofNat c.toNat) = name

instance (f : Field) (name : List Char) : Decidable (f.Is name) :=
  inferInstanceAs (Decidable (_ = _))

/-- Spaces and tabs. -/
def Blank (b : Bytes) : Prop := ∀ c ∈ b, c = 32 ∨ c = 9

instance (b : Bytes) : Decidable (Blank b) := inferInstanceAs (Decidable (∀ c ∈ b, _))

/-- The value of decimal digits. -/
def dec_value (s : Bytes) : ℕ := s.foldl (fun n b => n * 10 + (b.toNat - 48)) 0

/-- The field spells the length `n` in `digits`. -/
structure Field.Spells (f : Field) (digits : Bytes) (n : ℕ) : Prop where
  digits_ne : digits ≠ []
  digits_ok : ∀ c ∈ digits, is_ascii_digit c = true
  value_eq : ∃ before after, Blank before ∧ Blank after ∧ f.value = before ++ digits ++ after
  size : dec_value digits = n

/-- The field names the chunked coding among its codings. -/
structure Field.NamesChunked (f : Field) : Prop where
  ascii : ∀ c ∈ f.value, c < 0x80
  named : ∃ before coding after, f.value = before ++ coding ++ after ∧
    to_ascii_lowercase (coding.map fun c => Char.ofNat c.toNat) = CHUNKED

/-- A chunk: its size in hexadecimal, in any spelling, and an extension. -/
structure Chunk where
  digits : Bytes
  ext : Bytes
  data : Bytes
  digits_ok : ∀ c ∈ digits, is_ascii_hexdigit c = true
  ext_ok : InLine ext
  ext_apart : ∀ c, ext.head? = some c → is_ascii_hexdigit c = false
  size : hex_value digits = data.length
  data_ne : data ≠ []

def Chunk.encode (c : Chunk) : Bytes := c.digits ++ c.ext ++ CRLF ++ c.data ++ CRLF

/-- The last chunk, of size zero, and the trailer section. -/
structure LastChunk where
  digits : Bytes
  ext : Bytes
  trailer : List Field
  digits_ne : digits ≠ []
  digits_ok : ∀ c ∈ digits, is_ascii_hexdigit c = true
  ext_ok : InLine ext
  ext_apart : ∀ c, ext.head? = some c → is_ascii_hexdigit c = false
  size : hex_value digits = 0

def LastChunk.trailer_section (c : LastChunk) : Bytes := encode_fields c.trailer ++ CRLF

def LastChunk.encode (c : LastChunk) : Bytes := c.digits ++ c.ext ++ CRLF ++ c.trailer_section

/-- What follows the header section. -/
inductive Body where
  | nothing
  | octets (data : Bytes)
  | chunked (chunks : List Chunk) (last : LastChunk)

def Body.encode : Body → Bytes
  | .nothing => []
  | .octets data => data
  | .chunked chunks last => chunks.flatMap Chunk.encode ++ last.encode

/-- How the field lines announce a body. -/
def Body.AnnouncedBy (fs : List Field) : Body → Prop
  | .nothing => ∀ f ∈ fs, ¬ f.Is TRANSFER_ENCODING ∧ ¬ f.Is CONTENT_LENGTH
  | .octets data => (∀ f ∈ fs, ¬ f.Is TRANSFER_ENCODING) ∧ (∃ f ∈ fs, f.Is CONTENT_LENGTH) ∧
      ∀ f ∈ fs, f.Is CONTENT_LENGTH → ∃ digits, f.Spells digits data.length
  | .chunked chunks _ => (∃ f ∈ fs, f.Is TRANSFER_ENCODING ∧ f.NamesChunked) ∧
      chunks.length ≤ MAX_CHUNKS

/-- A request: a method the dissector knows, the rest of the start line, any field lines, and a
body they announce. -/
structure Request where
  method : Bytes
  target : Bytes
  fields : List Field
  body : Body
  method_ok : method ∈ METHODS
  target_ok : InLine target
  announced : body.AnnouncedBy fields
  head_le : (method ++ target ++ CRLF ++ encode_fields fields ++ CRLF).length ≤ MAX_HEAD

def Request.head (r : Request) : Bytes :=
  r.method ++ r.target ++ CRLF ++ encode_fields r.fields ++ CRLF

def Request.encode (r : Request) : Bytes := r.head ++ r.body.encode

/-- What the framer reads of a request: of its field lines the first 256, of a length 19 digits,
of a chunk size 8, of a trailer section `MAX_HEAD` octets, and `MAX_CHUNKS` chunks with the
last. -/
def Request.WithinBounds (r : Request) : Prop :=
  match r.body with
  | .nothing => True
  | .octets data => ∃ f, (r.fields.take 256).find? (fun f => f.Is CONTENT_LENGTH) = some f ∧
      ∃ digits, f.Spells digits data.length ∧ digits.length ≤ 19
  | .chunked chunks last =>
    (∃ f, (r.fields.take 256).find? (fun f => f.Is TRANSFER_ENCODING) = some f ∧
      f.NamesChunked) ∧
    (∀ c ∈ chunks, c.digits.length ≤ 8) ∧ last.digits.length ≤ 8 ∧
    last.trailer_section.length ≤ MAX_HEAD ∧ chunks.length < MAX_CHUNKS

/-! ## Header sections -/

theorem InLine.not_lf {b : Bytes} (h : InLine b) : LF ∉ b := fun hmem => (h LF hmem).2 rfl

/-- Lines in a row hold no line end. -/
theorem InLine.append {a b : Bytes} (ha : InLine a) (hb : InLine b) : InLine (a ++ b) := by
  intro c hc
  rcases List.mem_append.1 hc with hc | hc
  · exact ha c hc
  · exact hb c hc

theorem is_token_iff (c : UInt8) : is_token c = true → c ≠ CR ∧ c ≠ LF ∧ c ≠ 58 ∧ c ≠ 32 ∧ c ≠ 9 := by
  rintro h
  refine ⟨?_, ?_, ?_, ?_, ?_⟩ <;> (rintro rfl; exact absurd h (by decide))

/-- A field is one line. -/
theorem Field.inLine (f : Field) : InLine f.line := by
  apply InLine.append
  · intro c hc
    have htoken := is_token_iff c (f.name_ok c hc)
    exact ⟨htoken.1, htoken.2.1⟩
  · intro c hc
    rcases List.mem_cons.1 hc with rfl | hc
    · decide
    · exact f.value_ok c hc

theorem Field.line_ne (f : Field) : f.line ≠ [] := by simp [Field.line]

/-- A line and its end, which the framer takes off again. -/
theorem strip_cr_line {line : Bytes} : strip_cr (line ++ [CR]) = line := by
  unfold strip_cr
  rw [List.getLast?_concat, if_pos rfl, List.dropLast_concat]

theorem next_lf_crlf {line : Bytes} (h : InLine line) (rest : Bytes) :
    next_lf (line ++ CRLF ++ rest) = some (line.length + 1) := by
  have hnot : LF ∉ line ++ [CR] := by
    intro hmem
    rcases List.mem_append.1 hmem with hmem | hmem
    · exact h.not_lf hmem
    · exact absurd (List.mem_singleton.1 hmem) (by decide)
  have hsplit : line ++ CRLF ++ rest = (line ++ [CR]) ++ LF :: rest := by simp [CRLF]
  rw [hsplit, next_lf_line hnot, List.length_append]
  rfl

theorem take_crlf (line rest : Bytes) :
    (line ++ CRLF ++ rest).take (line.length + 1) = line ++ [CR] := by
  simp [CRLF, List.take_append]

theorem drop_crlf (line rest : Bytes) : (line ++ CRLF ++ rest).drop (line.length + 1 + 1) = rest := by
  have hlen : line.length + 1 + 1 = (line ++ CRLF).length := by simp [CRLF]
  rw [hlen, List.drop_left]

theorem header_block_line {line : Bytes} (h : InLine line) (hne : line ≠ []) (rest : Bytes) :
    header_block (line ++ CRLF ++ rest) = (header_block rest).map ((line ++ CRLF).length + ·) := by
  have hfull : (strip_cr (line ++ [CR])).isEmpty = false := by
    rw [strip_cr_line]
    simpa using hne
  rw [header_block_of_lf (next_lf_crlf h rest), take_crlf, drop_crlf, hfull, if_neg (by decide)]
  congr 1
  funext n
  simp [CRLF]

/-- A blank one ends it. -/
theorem header_block_blank (rest : Bytes) : header_block (CRLF ++ rest) = some CRLF.length := by
  have hnil : InLine [] := by decide
  have hnext := next_lf_crlf hnil rest
  rw [List.nil_append] at hnext
  rw [header_block_of_lf hnext]
  rfl

/-- A section of field lines ends at its blank line. -/
theorem header_block_fields (fs : List Field) :
    header_block (encode_fields fs ++ CRLF) = some (encode_fields fs ++ CRLF).length := by
  induction fs with
  | nil =>
    have hblank := header_block_blank []
    rw [List.append_nil] at hblank
    exact hblank
  | cons f fs ih =>
    have hsplit : encode_fields (f :: fs) ++ CRLF =
        f.line ++ CRLF ++ (encode_fields fs ++ CRLF) := by
      simp [encode_fields]
    rw [hsplit, header_block_line f.inLine f.line_ne, ih, Option.map_some]
    exact congrArg some List.length_append.symm

theorem head_end_of_block {section_ : Bytes} (h : header_block section_ = some section_.length)
    (hle : section_.length ≤ MAX_HEAD) (rest : Bytes) :
    head_end (section_ ++ rest) = some section_.length := by
  unfold head_end
  rw [List.take_append, List.take_of_length_le hle]
  exact (header_block_append h _).1

/-- The item a field is read as. -/
def Field.item (f : Field) : Item := Text.item (canonical f.name) 0 (trim f.value)

/-- A field is read back from its line. -/
theorem field_item_line (f : Field) : field_item f.line = f.item := by
  unfold field_item Field.line
  have hcolon : (f.name ++ 58 :: f.value).findIdx? (· == 58) = some f.name.length := by
    have hnone : f.name.findIdx? (· == 58) = none := by
      rw [List.findIdx?_eq_none_iff]
      intro c hc
      simpa using (is_token_iff c (f.name_ok c hc)).2.2.1
    rw [List.findIdx?_append, hnone, List.findIdx?_cons]
    simp
  have hvalue : (f.name ++ 58 :: f.value).drop (f.name.length + 1) = f.value := by
    have hsplit : f.name ++ 58 :: f.value = (f.name ++ [58]) ++ f.value := by simp
    have hlen : f.name.length + 1 = (f.name ++ [(58 : UInt8)]).length := by simp
    rw [hsplit, hlen, List.drop_left]
  rw [hcolon]
  dsimp only
  rw [List.take_left, hvalue]
  rfl

/-- The field lines read of a section: at most the bound of `lines`. -/
theorem header_items_fields (fs : List Field) (n : ℕ) (out : List Item) :
    header_items_from out (lines_up_to n (encode_fields fs ++ CRLF)) =
      out ++ (fs.take n).map Field.item := by
  -- By the fields, one line each; the limit cuts both sides alike.
  induction fs generalizing n out with
  | nil =>
    rcases n with - | n
    · simp [lines_up_to, header_items_from]
    · have hnext : next_lf CRLF = some 1 := by decide
      have hblank : (strip_cr (CRLF.take 1)).isEmpty = true := by decide
      change header_items_from out (lines_up_to (n + 1) CRLF) = _
      rw [lines_up_to, hnext]
      dsimp only
      rw [header_items_from, if_pos hblank]
      simp
  | cons f fs ih =>
    rcases n with - | n
    · simp [lines_up_to, header_items_from]
    · have hsplit : encode_fields (f :: fs) ++ CRLF =
          f.line ++ CRLF ++ (encode_fields fs ++ CRLF) := by
        simp [encode_fields]
      obtain ⟨c, rest, hline⟩ := List.exists_cons_of_ne_nil f.name_ne
      have hfirst : f.line.head? = some c := by
        unfold Field.line
        rw [hline]
        rfl
      have htoken := is_token_iff c (f.name_ok c (by rw [hline]; exact List.mem_cons_self))
      have hplain : ¬ (f.line.head? = some 32 ∨ f.line.head? = some 9) := by
        rw [hfirst]
        rintro (heq | heq)
        · exact htoken.2.2.2.1 (Option.some.inj heq)
        · exact htoken.2.2.2.2 (Option.some.inj heq)
      have hfull : f.line.isEmpty = false := by simpa using f.line_ne
      rw [hsplit, lines_up_to, next_lf_crlf f.inLine]
      dsimp only
      rw [take_crlf, drop_crlf, strip_cr_line, header_items_from, hfull, if_neg (by decide),
        if_neg hplain, ih, field_item_line]
      simp

/-- The start line is skipped. -/
theorem message_headers_head (r : Request) :
    message_headers r.head = (r.fields.take 256).map Field.item := by
  have hmethod : InLine r.method := by
    have hall : ∀ m ∈ METHODS, InLine m := by decide
    exact hall r.method r.method_ok
  have hsplit : r.head = (r.method ++ r.target) ++ CRLF ++ (encode_fields r.fields ++ CRLF) := by
    simp [Request.head]
  unfold message_headers header_items lines
  rw [hsplit, next_lf_crlf (hmethod.append r.target_ok), Option.elim_some, drop_crlf,
    header_items_fields, List.nil_append]

/-- The head of a request ends where it was written to end. -/
theorem Request.head_end_encode (r : Request) : head_end r.encode = some r.head.length := by
  have hmethod : InLine r.method := by
    have hall : ∀ m ∈ METHODS, InLine m := by decide
    exact hall r.method r.method_ok
  have hne : r.method ++ r.target ≠ [] := by
    have hall : ∀ m ∈ METHODS, m ≠ [] := by decide
    exact List.append_ne_nil_of_left_ne_nil (hall r.method r.method_ok) _
  apply head_end_of_block
  · have hsplit : r.head = (r.method ++ r.target) ++ CRLF ++ (encode_fields r.fields ++ CRLF) := by
      simp [Request.head]
    rw [hsplit, header_block_line (hmethod.append r.target_ok) hne, header_block_fields,
      Option.map_some]
    exact congrArg some List.length_append.symm
  · exact r.head_le

/-! ## What a field's value says -/

section Strip

variable {α : Type} {p : α → Bool} {a m b : List α}

/-- Dropping from the front stops at the first that does not satisfy `p`. -/
theorem dropWhile_keeps (hne : m ≠ []) (hm : ∀ c ∈ m, p c = false) :
    ∃ a', (a ++ m ++ b).dropWhile p = a' ++ m ++ b ∧ ((∀ c ∈ a, p c = true) → a' = []) := by
  induction a with
  | nil =>
    obtain ⟨c, rest, rfl⟩ := List.exists_cons_of_ne_nil hne
    refine ⟨[], ?_, fun _ => rfl⟩
    rw [List.nil_append, List.cons_append, List.dropWhile_cons, hm c List.mem_cons_self]
    rfl
  | cons x a ih =>
    rcases hx : p x with - | -
    · refine ⟨x :: a, ?_, fun hall => ?_⟩
      · rw [List.cons_append, List.cons_append, List.dropWhile_cons, hx]
        rfl
      · rw [hall x List.mem_cons_self] at hx
        exact absurd hx nofun
    · obtain ⟨a', hdrop, hall⟩ := ih
      refine ⟨a', ?_, fun h => hall fun c hc => h c (List.mem_cons_of_mem _ hc)⟩
      rw [List.cons_append, List.cons_append, List.dropWhile_cons, hx, if_pos rfl, hdrop]

/-- Stripping both ends keeps what has nothing to strip, and around it some of what was there. -/
theorem strip_keeps (hne : m ≠ []) (hm : ∀ c ∈ m, p c = false) :
    ∃ a' b', (((a ++ m ++ b).dropWhile p).reverse.dropWhile p).reverse = a' ++ m ++ b' ∧
      ((∀ c ∈ a, p c = true) → a' = []) ∧ ((∀ c ∈ b, p c = true) → b' = []) := by
  obtain ⟨a', hfront, ha⟩ := dropWhile_keeps (b := b) (a := a) hne hm
  have hrev : (a' ++ m ++ b).reverse = b.reverse ++ m.reverse ++ a'.reverse := by simp
  obtain ⟨b', hback, hb⟩ := dropWhile_keeps (p := p) (a := b.reverse) (b := a'.reverse)
    (m := m.reverse) (by simpa using hne) (fun c hc => hm c (List.mem_reverse.1 hc))
  refine ⟨a', b'.reverse, ?_, ha, fun h => ?_⟩
  · rw [hfront, hrev, hback]
    simp
  · rw [hb fun c hc => h c (List.mem_reverse.1 hc)]
    rfl

end Strip

/-- Either case of an octet is the same in lower case. -/
theorem toLower_toUpper (c : UInt8) :
    (Char.ofNat c.toNat).toUpper.toLower = (Char.ofNat c.toNat).toLower ∧
      (Char.ofNat c.toNat).toLower.toLower = (Char.ofNat c.toNat).toLower := by
  revert c
  apply Bits.forall_octet
  decide +kernel

/-- Canonical names are lowered to the plain ones. -/
theorem lowercase_canonical (upper : Bool) (name : Bytes) :
    to_ascii_lowercase (canonical_from upper name) =
      to_ascii_lowercase (name.map fun c => Char.ofNat c.toNat) := by
  induction name generalizing upper with
  | nil => rfl
  | cons c rest ih =>
    have hcase := toLower_toUpper c
    rw [canonical_from, to_ascii_lowercase, List.map_cons, List.map_cons, to_ascii_lowercase,
      List.map_cons]
    refine congrArg₂ List.cons ?_ (ih _)
    split
    · exact hcase.1
    · exact hcase.2

/-- A field is found by its name in lower case. -/
theorem message_field_items (fs : List Field) {name : List Char}
    (hname : to_ascii_lowercase name = name) :
    message_field (fs.map Field.item) name =
      (fs.find? fun f => f.Is name).map fun f => str_trim f.item.value := by
  induction fs with
  | nil => rfl
  | cons f fs ih =>
    have hmatch : eq_ignore_ascii_case f.item.name name = decide (f.Is name) := by
      unfold eq_ignore_ascii_case
      rw [hname]
      change (to_ascii_lowercase (canonical f.name) == name) = _
      unfold canonical
      rw [lowercase_canonical, Bool.eq_iff_iff, beq_iff_eq, decide_eq_true_iff]
      exact Iff.rfl
    unfold message_field at ih ⊢
    rw [List.map_cons, List.findSome?_cons, List.find?_cons, hmatch]
    by_cases hf : f.Is name
    · simp [hf]
    · simp only [hf, decide_false, Bool.false_eq_true, if_false]
      exact ih

/-- A digit is no whitespace, as an octet or as a character, and reads as one. -/
theorem digit_octet (c : UInt8) : is_ascii_digit c = true →
    is_ascii_whitespace c = false ∧ is_whitespace (Char.ofNat c.toNat) = false ∧
      is_digit (Char.ofNat c.toNat) = true ∧ (Char.ofNat c.toNat).toNat = c.toNat ∧ c < 0x80 := by
  revert c
  apply Bits.forall_octet
  decide +kernel

theorem blank_octet {c : UInt8} (h : c = 32 ∨ c = 9) : is_ascii_whitespace c = true := by
  rcases h with rfl | rfl <;> decide

/-- A length of at most 19 digits is read as it is spelled. -/
theorem Field.Spells.read {f : Field} {digits : Bytes} {n : ℕ} (h : f.Spells digits n)
    (hlen : digits.length ≤ 19) : length_value (str_trim f.item.value) = some n := by
  -- Trimmed of blanks and read as text, the value is its digits.
  obtain ⟨before, after, hbefore, hafter, hvalue⟩ := h.value_eq
  have hdigit := fun c hc => digit_octet c (h.digits_ok c hc)
  have htrim : trim f.value = digits := by
    obtain ⟨a', b', hstrip, ha, hb⟩ := strip_keeps (p := is_ascii_whitespace) (a := before)
      (b := after) h.digits_ne (fun c hc => (hdigit c hc).1)
    unfold trim
    rw [hvalue, hstrip, ha fun c hc => blank_octet (hbefore c hc),
      hb fun c hc => blank_octet (hafter c hc)]
    simp
  have hlossy : f.item.value = digits.map fun c => Char.ofNat c.toNat := by
    change from_utf8_lossy (trim f.value) = _
    rw [htrim]
    exact from_utf8_lossy_ascii fun c hc => (hdigit c hc).2.2.2.2
  have hstr : str_trim f.item.value = digits.map fun c => Char.ofNat c.toNat := by
    obtain ⟨a', b', hstrip, ha, hb⟩ := strip_keeps (p := is_whitespace) (a := []) (b := [])
      (m := digits.map fun c => Char.ofNat c.toNat) (by simpa using h.digits_ne) (by
        intro x hx
        obtain ⟨c, hc, rfl⟩ := List.mem_map.1 hx
        exact (hdigit c hc).2.1)
    rw [List.nil_append, List.append_nil, ha (by simp), hb (by simp)] at hstrip
    unfold str_trim
    rw [hlossy, hstrip]
    simp
  have hall : (digits.map fun c => Char.ofNat c.toNat).takeWhile is_digit =
      digits.map fun c => Char.ofNat c.toNat := by
    rw [List.takeWhile_eq_self_iff]
    intro x hx
    obtain ⟨c, hc, rfl⟩ := List.mem_map.1 hx
    exact (hdigit c hc).2.2.1
  -- Nineteen digits at most, so the fold is their decimal value.
  have hfold : ∀ (n : ℕ) (ds : Bytes), (∀ c ∈ ds, is_ascii_digit c = true) →
      (ds.map fun c => Char.ofNat c.toNat).foldl (fun n c => n * 10 + (c.toNat - 48)) n =
        ds.foldl (fun n b => n * 10 + (b.toNat - 48)) n := by
    intro n ds hds
    induction ds generalizing n with
    | nil => rfl
    | cons c ds ih =>
      rw [List.map_cons, List.foldl_cons, List.foldl_cons,
        (digit_octet c (hds c List.mem_cons_self)).2.2.2.1]
      exact ih _ fun d hd => hds d (List.mem_cons_of_mem _ hd)
  unfold length_value
  rw [hstr]
  dsimp only
  rw [hall, List.take_of_length_le (by simpa using hlen), if_neg (by simpa using h.digits_ne),
    hfold 0 digits h.digits_ok]
  exact congrArg some h.size

theorem contains_middle (a pat b : List Char) : contains (a ++ pat ++ b) pat = true := by
  unfold contains
  rw [List.any_eq_true]
  refine ⟨pat ++ b, ?_, ?_⟩
  · rw [List.mem_tails, List.append_assoc]
    exact List.suffix_append a (pat ++ b)
  · rw [List.isPrefixOf_iff_prefix]
    exact List.prefix_append pat b

/-- A letter of `chunked` is no whitespace. -/
theorem coding_octet (c : UInt8) : (Char.ofNat c.toNat).toLower ∈ CHUNKED →
    is_ascii_whitespace c = false ∧ is_whitespace (Char.ofNat c.toNat) = false := by
  revert c
  apply Bits.forall_octet
  decide +kernel

/-- The coding is found in a field that names it. -/
theorem Field.NamesChunked.read {f : Field} (h : f.NamesChunked) :
    contains (to_ascii_lowercase (str_trim f.item.value)) CHUNKED = true := by
  obtain ⟨before, coding, after, hvalue, hcoding⟩ := h.named
  have hletter : ∀ c ∈ coding, (Char.ofNat c.toNat).toLower ∈ CHUNKED := by
    intro c hc
    rw [← hcoding]
    exact List.mem_map.2 ⟨Char.ofNat c.toNat, List.mem_map.2 ⟨c, hc, rfl⟩, rfl⟩
  have hne : coding ≠ [] := by
    rintro rfl
    exact absurd hcoding (by decide)
  obtain ⟨a', b', hstrip, -, -⟩ := strip_keeps (p := is_ascii_whitespace) (a := before) (b := after)
    hne (fun c hc => (coding_octet c (hletter c hc)).1)
  have htrim : trim f.value = a' ++ coding ++ b' := by
    unfold trim
    rw [hvalue, hstrip]
  -- what is left of the value after trimming is still ASCII
  have hascii : ∀ c ∈ trim f.value, c < 0x80 := by
    intro c hc
    apply h.ascii
    unfold trim at hc
    have hmem := (List.dropWhile_suffix is_ascii_whitespace).subset (List.mem_reverse.1 hc)
    exact (List.dropWhile_suffix is_ascii_whitespace).subset (List.mem_reverse.1 hmem)
  have hlossy : f.item.value = (a' ++ coding ++ b').map fun c => Char.ofNat c.toNat := by
    change from_utf8_lossy (trim f.value) = _
    rw [from_utf8_lossy_ascii hascii, htrim]
  obtain ⟨a'', b'', hstr, -, -⟩ := strip_keeps (p := is_whitespace)
    (a := a'.map fun c => Char.ofNat c.toNat) (b := b'.map fun c => Char.ofNat c.toNat)
    (m := coding.map fun c => Char.ofNat c.toNat) (by simpa using hne) (by
      intro x hx
      obtain ⟨c, hc, rfl⟩ := List.mem_map.1 hx
      exact (coding_octet c (hletter c hc)).2)
  have hvalue' : str_trim f.item.value = a'' ++ coding.map (fun c => Char.ofNat c.toNat) ++ b'' := by
    unfold str_trim
    rw [hlossy, List.map_append, List.map_append, hstr]
  unfold to_ascii_lowercase at hcoding ⊢
  rw [hvalue', List.map_append, List.map_append, hcoding]
  exact contains_middle _ _ _

/-! ## Chunked bodies -/

theorem hexdigit_octet (c : UInt8) : is_ascii_hexdigit c = true → c ≠ CR ∧ c ≠ LF := by
  revert c
  apply Bits.forall_octet
  decide +kernel

/-- The size line of a chunk, in any spelling of at most eight digits. -/
theorem size_digits_line {digits ext : Bytes} (hdigits : ∀ c ∈ digits, is_ascii_hexdigit c = true)
    (hext : ∀ c, ext.head? = some c → is_ascii_hexdigit c = false) (hlen : digits.length ≤ 8) :
    size_digits (digits ++ ext ++ [CR]) = digits := by
  have hstop : (ext ++ [CR]).takeWhile is_ascii_hexdigit = [] := by
    rcases ext with - | ⟨c, ext⟩
    · decide
    · rw [List.cons_append, List.takeWhile_cons, hext c rfl]
      rfl
  unfold size_digits
  rw [List.append_assoc, List.takeWhile_append_of_pos hdigits, hstop, List.append_nil,
    List.take_of_length_le hlen]

/-- One turn of the walk, at a size line. -/
theorem chunk_walk_line {front digits ext : Bytes} (hdigits : ∀ c ∈ digits, is_ascii_hexdigit c = true)
    (hext : InLine ext) (hapart : ∀ c, ext.head? = some c → is_ascii_hexdigit c = false)
    (hne : digits ≠ []) (hlen : digits.length ≤ 8) (rest : Bytes) (n : ℕ) :
    chunk_walk (front ++ (digits ++ ext ++ CRLF ++ rest)) (n + 1) front.length =
      let after := (front ++ (digits ++ ext ++ CRLF)).length
      if hex_value digits = 0 then (head_end rest).map (after + ·)
      else if hex_value digits + 2 ≤ rest.length then
        chunk_walk (front ++ (digits ++ ext ++ CRLF ++ rest)) n (after + hex_value digits + 2)
      else none := by
  -- The line is cut at its feed, and the digits in front of the extension are the size.
  have hline : InLine (digits ++ ext) := InLine.append (fun c hc => hexdigit_octet c (hdigits c hc)) hext
  have hafter : front.length + ((digits ++ ext).length + 1) + 1 =
      (front ++ (digits ++ ext ++ CRLF)).length := by
    simp [CRLF]
    omega
  have hrest : (front ++ (digits ++ ext ++ CRLF ++ rest)).drop
      (front ++ (digits ++ ext ++ CRLF)).length = rest := by
    have hsplit : front ++ (digits ++ ext ++ CRLF ++ rest) =
        front ++ (digits ++ ext ++ CRLF) ++ rest := by
      simp only [List.append_assoc]
    rw [hsplit, List.drop_left]
  have hfull : digits.isEmpty = false := by simpa using hne
  rw [chunk_walk, if_pos (by simp), List.drop_left, next_lf_crlf hline]
  dsimp only
  rw [take_crlf, size_digits_line hdigits hapart hlen, hfull, if_neg (by decide), hafter, hrest]
  -- the test on the whole buffer is the one on what follows the line
  have hfit : (front ++ (digits ++ ext ++ CRLF)).length + hex_value digits + 2 ≤
      (front ++ (digits ++ ext ++ CRLF ++ rest)).length ↔ hex_value digits + 2 ≤ rest.length := by
    simp only [List.length_append]
    omega
  simp only [hfit]

/-- One turn of the walk, over a chunk that holds data. -/
theorem chunk_walk_chunk (c : Chunk) (hlen : c.digits.length ≤ 8) (front rest : Bytes) (n : ℕ) :
    chunk_walk (front ++ (c.encode ++ rest)) (n + 1) front.length =
      chunk_walk (front ++ c.encode ++ rest) n (front ++ c.encode).length := by
  -- a chunk with data has a size, so it is not the last
  have hpos : hex_value c.digits ≠ 0 := by
    rw [c.size]
    exact fun h => c.data_ne (List.length_eq_zero_iff.1 h)
  have hne : c.digits ≠ [] := by
    intro h
    rw [h] at hpos
    exact hpos rfl
  have hsplit : c.encode ++ rest = c.digits ++ c.ext ++ CRLF ++ (c.data ++ CRLF ++ rest) := by
    simp [Chunk.encode]
  have hmove : front ++ (c.digits ++ c.ext ++ CRLF ++ (c.data ++ CRLF ++ rest)) =
      front ++ c.encode ++ rest := by
    simp [Chunk.encode]
  -- the walk goes on behind the chunk's own line end
  have hskip : (front ++ (c.digits ++ c.ext ++ CRLF)).length + hex_value c.digits + 2 =
      (front ++ c.encode).length := by
    rw [c.size]
    simp only [Chunk.encode, List.length_append]
    simp [CRLF]
    omega
  have hfits : hex_value c.digits + 2 ≤ (c.data ++ CRLF ++ rest).length := by
    rw [c.size]
    simp [CRLF]
  rw [hsplit, chunk_walk_line c.digits_ok c.ext_ok c.ext_apart hne hlen]
  dsimp only
  rw [if_neg hpos, if_pos hfits, hskip, hmove]

/-- The last turn of the walk: the trailer section ends the body. -/
theorem chunk_walk_last (last : LastChunk) (hlen : last.digits.length ≤ 8) (front : Bytes) (n : ℕ) :
    chunk_walk (front ++ last.encode) (n + 1) front.length =
      (head_end last.trailer_section).map
        ((front ++ (last.digits ++ last.ext ++ CRLF)).length + ·) := by
  rw [LastChunk.encode, chunk_walk_line last.digits_ok last.ext_ok last.ext_apart last.digits_ne
    hlen]
  exact if_pos last.size

/-- The walk ends where the body ends. -/
theorem chunk_walk_encode {chunks : List Chunk} {last : LastChunk}
    (hsizes : ∀ c ∈ chunks, c.digits.length ≤ 8) (hlast : last.digits.length ≤ 8)
    (htrailer : last.trailer_section.length ≤ MAX_HEAD) {n : ℕ} (hn : chunks.length < n)
    (front : Bytes) :
    chunk_walk (front ++ (chunks.flatMap Chunk.encode ++ last.encode)) n front.length =
      some (front ++ (chunks.flatMap Chunk.encode ++ last.encode)).length := by
  -- On the chunks: the last one has the trailer behind it, any other is one turn of the walk.
  induction chunks generalizing n front with
  | nil =>
    obtain ⟨m, rfl⟩ : ∃ m, n = m + 1 := ⟨n - 1, by simp at hn; omega⟩
    have hend : head_end last.trailer_section = some last.trailer_section.length := by
      have hblock := head_end_of_block (header_block_fields last.trailer) htrailer []
      rwa [List.append_nil] at hblock
    rw [List.flatMap_nil, List.nil_append, chunk_walk_last last hlast, hend, Option.map_some]
    simp only [LastChunk.encode, List.length_append]
    congr 1
    omega
  | cons c chunks ih =>
    obtain ⟨m, rfl⟩ : ∃ m, n = m + 1 := ⟨n - 1, by simp at hn; omega⟩
    rw [List.flatMap_cons, List.append_assoc, chunk_walk_chunk c (hsizes c List.mem_cons_self),
      ← List.append_assoc front]
    apply ih (fun d hd => hsizes d (List.mem_cons_of_mem _ hd))
    simpa using hn

/-- With a chunk for every turn, the walk never gets to the last one. -/
theorem chunk_walk_short {chunks : List Chunk} (hsizes : ∀ c ∈ chunks, c.digits.length ≤ 8) {n : ℕ}
    (hn : n ≤ chunks.length) (front rest : Bytes) :
    chunk_walk (front ++ (chunks.flatMap Chunk.encode ++ rest)) n front.length = none := by
  induction n generalizing chunks front with
  | zero => rfl
  | succ n ih =>
    rcases chunks with - | ⟨c, chunks⟩
    · exact absurd hn (by simp)
    · rw [List.flatMap_cons, List.append_assoc,
        chunk_walk_chunk c (hsizes c List.mem_cons_self)]
      apply ih (fun d hd => hsizes d (List.mem_cons_of_mem _ hd))
      simpa using hn

/-! ## Whole requests -/

/-- A request looks like one. -/
theorem http_looks_like_encode (r : Request) : http_looks_like r.encode = true := by
  unfold http_looks_like
  rw [Bool.or_eq_true_iff, List.any_eq_true]
  refine Or.inr ⟨r.method, r.method_ok, ?_⟩
  rw [List.isPrefixOf_iff_prefix]
  unfold Request.encode Request.head
  simp

/-- And not like a response. -/
theorem not_status_encode (r : Request) : HTTP_SLASH.isPrefixOf r.encode = false := by
  apply not_status r.method_ok
  rw [List.isPrefixOf_iff_prefix]
  unfold Request.encode Request.head
  simp

/-- No field of the request is found by a name that none has. -/
theorem find_none {fs : List Field} {name : List Char} (h : ∀ f ∈ fs, ¬ f.Is name) :
    (fs.take 256).find? (fun f => f.Is name) = none := by
  rw [List.find?_eq_none]
  intro f hf
  simpa using h f (List.mem_of_mem_take hf)

/-- The first field of a name among those read of a request, as the framer looks it up. -/
theorem message_field_head (r : Request) {name : List Char} (hname : to_ascii_lowercase name = name) :
    message_field (message_headers r.head) name =
      ((r.fields.take 256).find? fun f => f.Is name).map fun f => str_trim f.item.value := by
  rw [message_headers_head]
  exact message_field_items _ hname

/-- What the framer decides between, once the header section is there. -/
theorem http_len_request (r : Request) :
    http_len r.encode =
      if (message_field (message_headers r.head) TRANSFER_ENCODING).any
          fun v => contains (to_ascii_lowercase v) CHUNKED then
        (chunked_len r.body.encode).map (r.head.length + ·)
      else
        match message_field (message_headers r.head) CONTENT_LENGTH with
        | some v =>
          match length_value v with
          | some n => if n ≤ r.body.encode.length then some (r.head.length + n) else none
          | none => none
        | none => some r.head.length := by
  have htake : r.encode.take r.head.length = r.head := List.take_left
  have hdrop : r.encode.drop r.head.length = r.body.encode := List.drop_left
  unfold http_len
  rw [if_pos (http_looks_like_encode r), r.head_end_encode]
  dsimp only
  rw [htake, hdrop, not_status_encode]
  rfl

/-- A body announced as chunked is walked as such. -/
theorem http_len_chunked {r : Request} {f : Field}
    (hf : (r.fields.take 256).find? (fun f => f.Is TRANSFER_ENCODING) = some f)
    (hnames : f.NamesChunked) :
    http_len r.encode = (chunked_len r.body.encode).map (r.head.length + ·) := by
  rw [http_len_request, message_field_head r (by decide), hf, Option.map_some, Option.any_some,
    hnames.read]
  exact if_pos rfl

/-- **A request within the bounds is one message**, of its own length. -/
theorem http_len_encode {r : Request} (h : r.WithinBounds) :
    http_len r.encode = some r.encode.length := by
  have hlength : r.encode.length = r.head.length + r.body.encode.length := List.length_append
  have hannounced := r.announced
  unfold Request.WithinBounds at h
  rw [hlength]
  rcases hbody : r.body with - | data | ⟨chunks, last⟩
  · -- nothing announced, nothing there
    rw [hbody] at hannounced
    rw [http_len_request, message_field_head r (by decide), message_field_head r (by decide),
      find_none fun f hf => (hannounced f hf).1, find_none fun f hf => (hannounced f hf).2]
    rfl
  · rw [hbody] at hannounced h
    obtain ⟨f, hf, digits, hspells, hlen⟩ := h
    rw [http_len_request, message_field_head r (by decide), message_field_head r (by decide),
      find_none hannounced.1, hf, Option.map_some]
    dsimp only
    rw [Option.map_none, Option.any_none, if_neg (by decide), hspells.read hlen, hbody]
    exact if_pos le_rfl
  · rw [hbody] at h
    obtain ⟨⟨f, hf, hnames⟩, hsizes, hlast, htrailer, hcount⟩ := h
    have hwalk : chunked_len (Body.chunked chunks last).encode =
        some (Body.chunked chunks last).encode.length :=
      chunk_walk_encode hsizes hlast htrailer hcount []
    rw [http_len_chunked hf hnames, hbody, hwalk]
    rfl

/-! ## Requests to run on -/

/-- `a: b` -/
def plain_field : Field where
  name := [97]
  value := [32, 98]
  name_ne := by decide
  name_ok := by decide +kernel
  value_ok := by decide

/-- `content-length: 1` -/
def length_field : Field where
  name := [99, 111, 110, 116, 101, 110, 116, 45, 108, 101, 110, 103, 116, 104]
  value := [32, 49]
  name_ne := by decide
  name_ok := by decide +kernel
  value_ok := by decide

theorem length_field_spells : length_field.Spells [49] 1 where
  digits_ne := by decide
  digits_ok := by decide +kernel
  value_eq := ⟨[32], [], by decide +kernel, by decide +kernel, rfl⟩
  size := by decide

/-- `transfer-encoding: chunked` -/
def coding_field : Field where
  name := [116, 114, 97, 110, 115, 102, 101, 114, 45, 101, 110, 99, 111, 100, 105, 110, 103]
  value := [32, 99, 104, 117, 110, 107, 101, 100]
  name_ne := by decide
  name_ok := by decide +kernel
  value_ok := by decide

theorem coding_field_names : coding_field.NamesChunked where
  ascii := by decide +kernel
  named := ⟨[32], [99, 104, 117, 110, 107, 101, 100], [], by decide, by decide⟩

theorem coding_field_found : ([coding_field].take 256).find? (fun f => f.Is TRANSFER_ENCODING) =
    some coding_field := List.find?_cons_of_pos (by decide)

/-- `GET / HTTP/1.1` with its field lines and body. -/
def get_request (fields : List Field) (body : Body) (announced : body.AnnouncedBy fields)
    (head_le : (word ['G', 'E', 'T', ' '] ++ word ['/', ' ', 'H', 'T', 'T', 'P', '/', '1', '.', '1'] ++
      CRLF ++ encode_fields fields ++ CRLF).length ≤ MAX_HEAD) : Request where
  method := word ['G', 'E', 'T', ' ']
  target := word ['/', ' ', 'H', 'T', 'T', 'P', '/', '1', '.', '1']
  fields := fields
  body := body
  method_ok := by decide
  target_ok := by decide
  announced := announced
  head_le := head_le

theorem nothing_announced : Body.nothing.AnnouncedBy [plain_field] := by
  intro f hf
  rw [List.mem_singleton.1 hf]
  exact ⟨by decide, by decide⟩

/-- A body of one octet, announced by the field line after `n` others. -/
theorem one_octet_announced (n : ℕ) :
    (Body.octets [120]).AnnouncedBy (List.replicate n plain_field ++ [length_field]) := by
  have hlast : length_field ∈ List.replicate n plain_field ++ [length_field] :=
    List.mem_append_right _ (List.mem_singleton_self _)
  refine ⟨?_, ⟨length_field, hlast, by decide⟩, ?_⟩
  · intro f hf
    rcases List.mem_append.1 hf with hf | hf
    · rw [List.eq_of_mem_replicate hf]
      decide
    · rw [List.mem_singleton.1 hf]
      decide
  · intro f hf his
    rcases List.mem_append.1 hf with hf | hf
    · rw [List.eq_of_mem_replicate hf] at his
      exact absurd his (by decide)
    · rw [List.mem_singleton.1 hf]
      exact ⟨[49], length_field_spells⟩

/-- A chunked body, announced. -/
theorem chunked_announced {chunks : List Chunk} (last : LastChunk) (h : chunks.length ≤ MAX_CHUNKS) :
    (Body.chunked chunks last).AnnouncedBy [coding_field] :=
  ⟨⟨coding_field, List.mem_singleton_self _, by decide, coding_field_names⟩, h⟩

/-- The length is announced by the 257th field line. -/
def many_fields : Request :=
  get_request (List.replicate 256 plain_field ++ [length_field]) (.octets [120])
    (one_octet_announced 256) (by decide +kernel)

/-- `0`, and a trailer section. -/
def last_chunk (trailer : List Field) : LastChunk where
  digits := [48]
  ext := []
  trailer := trailer
  digits_ne := by decide
  digits_ok := by decide +kernel
  ext_ok := by decide
  ext_apart := by decide +kernel
  size := by decide

/-- A chunk that holds an empty line, its size written `2` behind zeros. -/
def blank_chunk (zeros : ℕ) (h : hex_value (List.replicate zeros 48 ++ [50]) = 2)
    (hdigits : ∀ c ∈ List.replicate zeros 48 ++ [50], is_ascii_hexdigit c = true) : Chunk where
  digits := List.replicate zeros 48 ++ [50]
  ext := []
  data := CRLF
  digits_ok := hdigits
  ext_ok := by decide
  ext_apart := by decide +kernel
  size := h
  data_ne := by decide

/-- A chunk size of nine digits. -/
def padded_size : Request :=
  get_request [coding_field] (.chunked [blank_chunk 8 (by decide +kernel) (by decide +kernel)] (last_chunk []))
    (chunked_announced _ (by decide)) (by decide +kernel)

/-- A trailer section above `MAX_HEAD`. -/
def long_trailer : Request :=
  get_request [coding_field] (.chunked [] (last_chunk (List.replicate MAX_HEAD plain_field)))
    (chunked_announced _ (by decide)) (by decide +kernel)

/-- A chunk for every turn of the walk, and the last one. -/
def full_body : Request :=
  get_request [coding_field]
    (.chunked (List.replicate MAX_CHUNKS (blank_chunk 0 (by decide +kernel) (by decide +kernel))) (last_chunk []))
    (chunked_announced _ (by rw [List.length_replicate])) (by decide +kernel)

/-! ## Requests laid end to end -/

/-- **Pipelined requests are framed one by one**: of requests within the bounds, however many,
laid end to end, the framer returns exactly the extents, in order. -/
theorem pipelined_requests (rs : List Request) (h : ∀ r ∈ rs, r.WithinBounds) :
    messages .Http (rs.map Request.encode).flatten = Framing.extents 0 (rs.map Request.encode) := by
  apply Framing.cut_flatten (message_len_framer .Http)
  intro p hp
  obtain ⟨r, hr, rfl⟩ := List.mem_map.1 hp
  refine ⟨?_, http_len_encode (h r hr)⟩
  have hmethod : r.method ≠ [] := by
    have hall : ∀ m ∈ METHODS, m ≠ [] := by decide
    exact hall r.method r.method_ok
  unfold Request.encode Request.head
  simp [hmethod]

/-- A request with no body, one with a length and one in chunks. -/
theorem pipelined_requests_three :
    let rs := [get_request [plain_field] .nothing nothing_announced (by decide +kernel),
      get_request [length_field] (.octets [120]) (one_octet_announced 0) (by decide +kernel),
      get_request [coding_field] (.chunked [blank_chunk 0 (by decide +kernel) (by decide +kernel)] (last_chunk []))
        (chunked_announced _ (by decide)) (by decide +kernel)]
    (∀ r ∈ rs, r.WithinBounds) ∧
      messages .Http (rs.map Request.encode).flatten = Framing.extents 0 (rs.map Request.encode) := by
  intro rs
  have hbounds : ∀ r ∈ rs, r.WithinBounds := by
    intro r hr
    simp only [rs, List.mem_cons, List.not_mem_nil, or_false] at hr
    rcases hr with rfl | rfl | rfl
    · trivial
    · exact ⟨length_field, List.find?_cons_of_pos (by decide), [49], length_field_spells, by decide⟩
    · refine ⟨⟨coding_field, coding_field_found, coding_field_names⟩, ?_, by decide, by decide +kernel,
        by decide⟩
      intro c hc
      rw [List.mem_singleton.1 hc]
      decide
  exact ⟨hbounds, pipelined_requests rs hbounds⟩

/-! ## What the bounds leave out -/

/-- A request framed as it was laid is one message of its own length. -/
theorem Request.http_len_of_framed {r : Request}
    (h : messages .Http ([r].map Request.encode).flatten =
      Framing.extents 0 ([r].map Request.encode)) : http_len r.encode = some r.encode.length := by
  have hone : ([r].map Request.encode).flatten = r.encode := by simp
  rw [hone] at h
  unfold messages at h
  rw [Framing.cut] at h
  split at h
  · split at h
    · rename_i n hn
      split at h
      · obtain ⟨hfirst, -⟩ := List.cons.inj h
        rw [← (Prod.mk.inj hfirst).2]
        exact hn
      · exact absurd h nofun
    · exact absurd h nofun
  · exact absurd h nofun

/-- A trailer section that does not fit the search is never found to end. -/
theorem head_end_trailer {c : LastChunk} (h : MAX_HEAD < c.trailer_section.length) :
    head_end c.trailer_section = none := by
  rcases hend : head_end c.trailer_section with - | n
  · rfl
  · -- its end would be the whole section's, past what is searched
    unfold head_end at hend
    obtain ⟨hmore, -, hle⟩ := header_block_append hend (c.trailer_section.drop MAX_HEAD)
    rw [List.take_append_drop] at hmore
    have hwhole : header_block c.trailer_section = some c.trailer_section.length :=
      header_block_fields c.trailer
    rw [hwhole] at hmore
    have hn := Option.some.inj hmore
    rw [List.length_take] at hle
    omega

/-- A body whose chunks or trailer section run over a bound is never complete. -/
theorem chunked_len_none {chunks : List Chunk} {last : LastChunk}
    (hsizes : ∀ c ∈ chunks, c.digits.length ≤ 8) (hlast : last.digits.length ≤ 8)
    (h : MAX_CHUNKS ≤ chunks.length ∨ MAX_HEAD < last.trailer_section.length ∧ chunks = []) :
    chunked_len (Body.chunked chunks last).encode = none := by
  unfold chunked_len
  rcases h with hcount | ⟨htrailer, rfl⟩
  · exact chunk_walk_short hsizes hcount [] last.encode
  · have hlate : MAX_CHUNKS = (MAX_CHUNKS - 1) + 1 := by decide
    have hwalk := chunk_walk_last last hlast [] (MAX_CHUNKS - 1)
    rw [head_end_trailer htrailer, ← hlate] at hwalk
    exact hwalk

/-- No end is found of the long trailer section. -/
theorem long_trailer_none : http_len long_trailer.encode = none := by
  have hlong : MAX_HEAD <
      (last_chunk (List.replicate MAX_HEAD plain_field)).trailer_section.length := by
    simp [last_chunk, LastChunk.trailer_section, encode_fields, Field.line, plain_field, CRLF,
      List.length_flatMap]
    omega
  have hnone := chunked_len_none (fun c hc => absurd hc List.not_mem_nil) (by decide)
    (Or.inr ⟨hlong, rfl⟩)
  rw [http_len_chunked coding_field_found coding_field_names]
  exact congrArg (Option.map _) hnone

/-- The walk over the full body never gets to its last chunk. -/
theorem full_body_none : http_len full_body.encode = none := by
  have hsizes : ∀ c ∈ List.replicate MAX_CHUNKS (blank_chunk 0 (by decide +kernel) (by decide +kernel)),
      c.digits.length ≤ 8 := by
    intro c hc
    rw [List.eq_of_mem_replicate hc]
    decide
  have hnone := chunked_len_none hsizes (show (last_chunk []).digits.length ≤ 8 by decide)
    (Or.inl (by rw [List.length_replicate]))
  rw [http_len_chunked coding_field_found coding_field_names]
  exact congrArg (Option.map _) hnone

/-- **Not every request of the grammar is framed**: not one whose length is announced behind 256
field lines, whose trailer section is longer than a header section may be, with as many chunks as
are walked besides the last, or with nine digits in a chunk size. -/
theorem requests_beyond_bounds :
    [many_fields, long_trailer, full_body, padded_size].Forall fun r =>
      messages .Http ([r].map Request.encode).flatten ≠ Framing.extents 0 ([r].map Request.encode) := by
  rw [List.forall_iff_forall_mem]
  intro r hr hframed
  have hlen := Request.http_len_of_framed hframed
  simp only [List.mem_cons, List.not_mem_nil, or_false] at hr
  rcases hr with rfl | rfl | rfl | rfl
  · exact absurd hlen (by decide +kernel)
  · rw [long_trailer_none] at hlen
    exact absurd hlen nofun
  · rw [full_body_none] at hlen
    exact absurd hlen nofun
  · exact absurd hlen (by decide +kernel)

end Wiry.Stream
