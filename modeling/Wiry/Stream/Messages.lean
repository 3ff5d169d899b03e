/-
The message framer of `crates/wiry-core/src/stream.rs`: the length of the first
complete message in a direction's octets, and every complete message, with
`http::looks_like`, `tls::looks_like` and `tls::record_len`.
-/
import Wiry.Lib.Framing
import Wiry.Layers.Text

set_option autoImplicit false

namespace Wiry.Stream

open Wiry.Packet Wiry.Text

/-- Octets of an HTTP header section searched for the blank line ending it. -/
def MAX_HEAD : ℕ := 64 <<< 10

/-- Chunks walked in one chunked body. -/
def MAX_CHUNKS : ℕ := 1 <<< 16

/-! ## The first message -/

/-- `http::METHODS`. -/
def METHODS : List Bytes :=
  [word ['G', 'E', 'T', ' '],
    word ['P', 'O', 'S', 'T', ' '],
    word ['H', 'E', 'A', 'D', ' '],
    word ['P', 'U', 'T', ' '],
    word ['D', 'E', 'L', 'E', 'T', 'E', ' '],
    word ['O', 'P', 'T', 'I', 'O', 'N', 'S', ' '],
    word ['T', 'R', 'A', 'C', 'E', ' '],
    word ['C', 'O', 'N', 'N', 'E', 'C', 'T', ' '],
    word ['P', 'A', 'T', 'C', 'H', ' '],
    word ['P', 'R', 'O', 'P', 'F', 'I', 'N', 'D', ' '],
    word ['P', 'R', 'O', 'P', 'P', 'A', 'T', 'C', 'H', ' '],
    word ['M', 'K', 'C', 'O', 'L', ' '],
    word ['C', 'O', 'P', 'Y', ' '],
    word ['M', 'O', 'V', 'E', ' '],
    word ['L', 'O', 'C', 'K', ' '],
    word ['U', 'N', 'L', 'O', 'C', 'K', ' ']]

/-- What a status line starts with. -/
def HTTP_SLASH : Bytes := word ['H', 'T', 'T', 'P', '/']

/-- `http::looks_like`. -/
def http_looks_like (p : Bytes) : Bool :=
  HTTP_SLASH.isPrefixOf p || METHODS.any fun m => m.isPrefixOf p

/-- `tls::looks_like`. -/
def tls_looks_like (p : Bytes) : Bool :=
  p[0]?.any (fun t => 20 ≤ t && t ≤ 24) && p[1]? == some 3 && p[2]?.any (fun m => m ≤ 4)

/-- `tls::record_len`. -/
def record_len (hdr : Bytes) : ℕ := if 5 ≤ hdr.length then 5 + (be16 hdr 3).toNat else 5

/-- `tls_len`. -/
def tls_len (d : Bytes) : Option ℕ :=
  if tls_looks_like d then
    if record_len d ≤ d.length then some (record_len d) else none
  else none

/-- `head_end`: where the header section ends, searched within `MAX_HEAD`. -/
def head_end (d : Bytes) : Option ℕ := header_block (d.take MAX_HEAD)

/-- The value of a hexadecimal digit. -/
def hex_digit (b : UInt8) : ℕ :=
  if is_ascii_digit b then b.toNat - 48 else if b ≤ 70 then b.toNat - 55 else b.toNat - 87

/-- `usize::from_str_radix(s, 16)`, of digits. -/
def hex_value (s : Bytes) : ℕ := s.foldl (fun n b => n * 16 + hex_digit b) 0

/-- The digits of a chunk-size line that are read as its size. -/
def size_digits (line : Bytes) : Bytes := (line.takeWhile is_ascii_hexdigit).take 8

/-- The `for` of `chunked_len`, `n` chunks of it, from offset `i`. -/
def chunk_walk (body : Bytes) : ℕ → ℕ → Option ℕ
  | 0, _ => none
  | n + 1, i =>
    if i ≤ body.length then
      match next_lf (body.drop i) with
      | some p =>
        let digits := size_digits ((body.drop i).take p)
        if digits.isEmpty then none
        else
          let after := i + p + 1
          let size := hex_value digits
          if size = 0 then (head_end (body.drop after)).map (after + ·)
          else if after + size + 2 ≤ body.length then chunk_walk body n (after + size + 2)
          else none
      | none => none
    else none

/-- `chunked_len`. -/
def chunked_len (body : Bytes) : Option ℕ := chunk_walk body MAX_CHUNKS 0

/-- `transfer-encoding`. -/
def TRANSFER_ENCODING : List Char :=
  ['t', 'r', 'a', 'n', 's', 'f', 'e', 'r', '-', 'e', 'n', 'c', 'o', 'd', 'i', 'n', 'g']

/-- `content-length`. -/
def CONTENT_LENGTH : List Char :=
  ['c', 'o', 'n', 't', 'e', 'n', 't', '-', 'l', 'e', 'n', 'g', 't', 'h']

/-- `chunked`. -/
def CHUNKED : List Char := ['c', 'h', 'u', 'n', 'k', 'e', 'd']

/-- `char::is_ascii_digit`. -/
def is_digit (c : Char) : Bool := 48 ≤ c.toNat && c.toNat ≤ 57

/-- The leading digits of a `content-length` value, and `str::parse` of them. -/
def length_value (v : List Char) : Option ℕ :=
  let digits := (v.takeWhile is_digit).take 19
  if digits.isEmpty then none else some (digits.foldl (fun n c => n * 10 + (c.toNat - 48)) 0)

/-- `http_len`. -/
def http_len (d : Bytes) : Option ℕ :=
  if http_looks_like d then
    match head_end d with
    | none => none
    | some head =>
      let body := d.drop head
      let fields := message_headers (d.take head)
      let chunked := (message_field fields TRANSFER_ENCODING).any fun v =>
        contains (to_ascii_lowercase v) CHUNKED
      if chunked then (chunked_len body).map (head + ·)
      else
        match message_field fields CONTENT_LENGTH with
        | some v =>
          match length_value v with
          | some n => if n ≤ body.length then some (head + n) else none
          | none => none
        -- with no length and no chunking a request has no body and a response runs to the close
        | none => if HTTP_SLASH.isPrefixOf d then none else some head
  else none

/-- `message_len`. -/
def message_len (app : ProtoId) (d : Bytes) : Option ℕ :=
  match app with
  | .Http => http_len d
  | .Tls => tls_len d
  | _ => none

/-- `messages`: every complete message, as offset and length. -/
def messages (app : ProtoId) (d : Bytes) : List (ℕ × ℕ) := Framing.cut (message_len app) d 0

/-! ## Nothing that arrives later changes an answer -/

theorem isPrefixOf_append {m d : Bytes} (h : m.isPrefixOf d = true) (e : Bytes) :
    m.isPrefixOf (d ++ e) = true := by
  rw [List.isPrefixOf_iff_prefix] at h ⊢
  exact h.trans (List.prefix_append d e)

/-- What starts with a method starts with no status line, whatever follows. -/
theorem not_status {m d : Bytes} (hm : m ∈ METHODS) (h : m.isPrefixOf d = true) :
    HTTP_SLASH.isPrefixOf d = false := by
  rw [List.isPrefixOf_iff_prefix] at h
  rcases hs : HTTP_SLASH.isPrefixOf d with - | -
  · rfl
  · rw [List.isPrefixOf_iff_prefix] at hs
    -- one of the two would start with the other
    have hclash : ∀ m ∈ METHODS, ¬ m <+: HTTP_SLASH ∧ ¬ HTTP_SLASH <+: m := by decide
    rcases List.prefix_or_prefix_of_prefix h hs with hle | hle
    · exact absurd hle (hclash m hm).1
    · exact absurd hle (hclash m hm).2

theorem http_looks_like_append {d : Bytes} (h : http_looks_like d = true) (e : Bytes) :
    http_looks_like (d ++ e) = true ∧ HTTP_SLASH.isPrefixOf (d ++ e) = HTTP_SLASH.isPrefixOf d := by
  unfold http_looks_like at h ⊢
  rcases Bool.or_eq_true_iff.1 h with hs | hm
  · rw [isPrefixOf_append hs e, hs]
    exact ⟨rfl, rfl⟩
  · obtain ⟨m, hmem, hm⟩ := List.any_eq_true.1 hm
    rw [not_status hmem hm, not_status hmem (isPrefixOf_append hm e)]
    refine ⟨?_, rfl⟩
    rw [Bool.false_or, List.any_eq_true]
    exact ⟨m, hmem, isPrefixOf_append hm e⟩

theorem head_end_append {d : Bytes} {n : ℕ} (h : head_end d = some n) (e : Bytes) :
    head_end (d ++ e) = some n ∧ 0 < n ∧ n ≤ d.length := by
  unfold head_end at h ⊢
  obtain ⟨hmore, hpos, hle⟩ := header_block_append h (e.take (MAX_HEAD - d.length))
  rw [List.length_take] at hle
  rw [List.take_append]
  exact ⟨hmore, hpos, by omega⟩

/-- The walk over the chunks stands where it stood, and inside the body. -/
theorem chunk_walk_append {body : Bytes} {n i len : ℕ} (h : chunk_walk body n i = some len)
    (e : Bytes) : chunk_walk (body ++ e) n i = some len ∧ len ≤ body.length := by
  induction n generalizing i with
  | zero => exact absurd h nofun
  | succ n ih =>
    rw [chunk_walk] at h
    split at h
    · rename_i hi
      split at h
      · rename_i p hp
        have hplt := next_lf_lt hp
        rw [List.length_drop] at hplt
        have hdrop : (body ++ e).drop i = body.drop i ++ e := List.drop_append_of_le_length hi
        have htake : (body.drop i ++ e).take p = (body.drop i).take p :=
          List.take_append_of_le_length (by rw [List.length_drop]; omega)
        have hafter : (body ++ e).drop (i + p + 1) = body.drop (i + p + 1) ++ e :=
          List.drop_append_of_le_length (by omega)
        rw [chunk_walk, if_pos (by rw [List.length_append]; omega), hdrop, next_lf_append hp e]
        dsimp only at h ⊢
        rw [htake, hafter]
        split at h
        · exact absurd h nofun
        · rename_i hdigits
          rw [if_neg hdigits]
          split at h
          · -- the last chunk: the trailer section ends the body
            rename_i hzero
            rw [if_pos hzero]
            obtain ⟨m, hm, rfl⟩ := Option.map_eq_some_iff.1 h
            obtain ⟨hmore, -, hle⟩ := head_end_append hm e
            rw [List.length_drop] at hle
            rw [hmore]
            exact ⟨rfl, by omega⟩
          · rename_i hzero
            rw [if_neg hzero]
            split at h
            · rename_i hfit
              rw [if_pos (by rw [List.length_append]; omega)]
              exact ih h
            · exact absurd h nofun
      · exact absurd h nofun
    · exact absurd h nofun

/-- Nor the length of a message that is whole. -/
theorem http_len_append {d : Bytes} {n : ℕ} (h : http_len d = some n) (e : Bytes) :
    http_len (d ++ e) = some n ∧ n ≤ d.length := by
  -- The head is found in the same place, and the length is read off it alone.
  unfold http_len at h
  split at h
  · rename_i hlook
    obtain ⟨hlook', hstatus⟩ := http_looks_like_append hlook e
    split at h
    · cases h
    · rename_i head hhead
      obtain ⟨hhead', -, hle⟩ := head_end_append hhead e
      have htake : (d ++ e).take head = d.take head := List.take_append_of_le_length hle
      have hdrop : (d ++ e).drop head = d.drop head ++ e := List.drop_append_of_le_length hle
      unfold http_len
      rw [if_pos hlook', hhead']
      dsimp only at h ⊢
      rw [htake, hdrop, hstatus]
      split at h
      -- A chunked body ends at its last chunk, which lies before what was appended.
      · rename_i hchunked
        rw [if_pos hchunked]
        obtain ⟨m, hm, rfl⟩ := Option.map_eq_some_iff.1 h
        obtain ⟨hmore, hfit⟩ := chunk_walk_append hm e
        rw [List.length_drop] at hfit
        refine ⟨?_, by omega⟩
        unfold chunked_len
        rw [hmore]
        rfl
      -- A counted body is as long as its field says.
      · rename_i hchunked
        rw [if_neg hchunked]
        split at h
        · rename_i v hv
          split at h
          · rename_i m _
            split at h
            · rename_i hfit
              obtain rfl : head + m = n := Option.some.inj h
              rw [List.length_drop] at hfit
              rw [if_pos (by rw [List.length_append, List.length_drop]; omega)]
              exact ⟨rfl, by omega⟩
            · cases h
          · cases h
        · split at h
          · cases h
          · obtain rfl : head = n := Option.some.inj h
            rename_i hresponse
            rw [if_neg hresponse]
            exact ⟨rfl, hle⟩
  · cases h

/-- The same for a TLS record. -/
theorem tls_len_append {d : Bytes} {n : ℕ} (h : tls_len d = some n) (e : Bytes) :
    tls_len (d ++ e) = some n ∧ n ≤ d.length := by
  unfold tls_len at h
  split at h
  · rename_i hlook
    split at h
    · rename_i hfit
      obtain rfl : record_len d = n := Option.some.inj h
      have hfive : 5 ≤ d.length := by
        unfold record_len at hfit
        split at hfit <;> omega
      -- the header is all there, so every octet read of it is the same one
      have hget : ∀ i, i < 5 → (d ++ e)[i]? = d[i]? := fun i hi =>
        List.getElem?_append_left (by omega)
      have hlook' : tls_looks_like (d ++ e) = true := by
        unfold tls_looks_like at hlook ⊢
        rw [hget 0 (by omega), hget 1 (by omega), hget 2 (by omega)]
        exact hlook
      have hlen : record_len (d ++ e) = record_len d := by
        unfold record_len be16
        rw [if_pos hfive, if_pos (by rw [List.length_append]; omega)]
        simp only [List.getD_eq_getElem?_getD, hget 3 (by omega), hget 4 (by omega)]
      refine ⟨?_, hfit⟩
      unfold tls_len
      rw [if_pos hlook', hlen, if_pos (by rw [List.length_append]; omega)]
    · exact absurd h nofun
  · exact absurd h nofun

/-- The framer answers for good, and inside what has arrived. -/
theorem message_len_framer (app : ProtoId) : Framing.Framer (message_len app) where
  stable := by
    intro d n h e
    unfold message_len at h ⊢
    split at h
    · exact (http_len_append h e).1
    · exact (tls_len_append h e).1
    · exact absurd h nofun
  fits := by
    intro d n h
    unfold message_len at h
    split at h
    · exact (http_len_append h []).2
    · exact (tls_len_append h []).2
    · exact absurd h nofun

/-- **Framing is incremental**: what is framed early is the front of what is framed late, the
extents follow one another from the start inside the data, and the rest of the data frames from
the end of any message on as it does within the whole. -/
theorem incremental_framing (app : ProtoId) (d : Bytes) :
    (∀ e, messages app d <+: messages app (d ++ e)) ∧
      Framing.Contiguous 0 (messages app d) d.length ∧
      ∀ k, k ≤ (messages app d).length →
        let stop := Framing.finish 0 (messages app d) k
        (messages app d).drop k =
          (messages app (d.drop stop)).map fun m => (stop + m.1, m.2) := by
  refine ⟨?_, ?_, ?_⟩
  · intro e
    exact Framing.cut_append (message_len_framer app) d e 0
  · exact Framing.cut_contiguous (message_len_framer app) d (Nat.zero_le _)
  · intro k hk stop
    have hrest := Framing.cut_rest (message_len app) d 0 k hk
    have hshift := Framing.cut_drop (message_len app) d stop 0
    rw [Nat.add_zero] at hshift
    exact hrest.trans hshift

end Wiry.Stream
