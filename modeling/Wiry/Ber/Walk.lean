/-
`BERcodec_SEQUENCE.do_dec` of `python/wiry/asn1/ber.py` in any tag context, `safe` or not:
its walk over `Elements`, and the plain loop that walk stands for.

A context gives each tag its codec. What an exception leaves of the budget matters here, since
with `safe` on a decode goes on behind one; so does all that an exception carries.
-/
import Wiry.Ber.Codec

set_option autoImplicit false

namespace Wiry.Ber

open Packet (Bytes slice)

/-! ## What is decoded and raised -/

/-- What a BER_Decoding_Error says. -/
inductive Refusal where
  /-- Got empty object while expecting tag -/
  | empty_object
  /-- Unknown prefix of the octets shown -/
  | prefix_unknown (p : ℕ) (shown : Bytes)
  /-- Got tag while expecting, a BER_BadTag_Decoding_Error -/
  | bad_tag (tag : ℕ)
  /-- No bytes while expecting a length -/
  | no_length
  /-- BER_len_dec: Got bytes while expecting -/
  | len_dec (got expected : ℕ)
  /-- Got bytes while expecting -/
  | too_short (got expected : ℕ)
  /-- BER_num_dec: got empty string -/
  | num_empty
  /-- BER_num_dec: maximum value reached (2^32-1) -/
  | num_maximum
  /-- BER_num_dec: unfinished number description -/
  | num_unfinished
  /-- What a codec makes of contents it cannot take. -/
  | contents
  /-- element consumed no octets -/
  | nothing_consumed
  /-- Not enough bytes to decode sequence -/
  | sequence_short
deriving DecidableEq

mutual

/-- An object, or what `safe` puts in the place of one. -/
inductive Decoded (ν : Type) where
  | value (tag : ℕ) (val : ν)
  | constructed (tag : ℕ) (val : List (Decoded ν))
  /-- ASN1_BADTAG of octets. -/
  | badtag_octets (s : Bytes)
  /-- ASN1_BADTAG of an object. -/
  | badtag (o : Decoded ν)
  /-- ASN1_DECODING_ERROR. -/
  | decoding_error (s : Bytes) (exc : Raised ν)
  /-- The objects a failed element had decoded, in the list its error carries. -/
  | decoded (val : List (Decoded ν))

inductive Raised (ν : Type) where
  | refused (why : Refusal) (remaining : Bytes) (decoded : Option (List (Decoded ν)))
  /-- Codec not found for tag, or no object assigned to it: an ASN1_Error. -/
  | asn1_error
  /-- BER: more than 262144 elements in one decode, a BER_Exception. -/
  | too_many_elements
  /-- Reached maximum BER recursion limit, a BER_Exception. -/
  | recursion
  /-- A Python error of another class. -/
  | python

end

/-- Why a codec does not take the contents of its tag. -/
inductive Objection where
  /-- A BER_Decoding_Error over the contents. -/
  | contents
  | asn1_error
  | python

/-- The codec a context has for a tag. -/
inductive Entry (ν : Type) where
  /-- None is registered. -/
  | missing
  /-- BERcodec_Object itself. -/
  | stem
  /-- A codec that takes contents of the tag of its class. -/
  | leaf (tag : ℕ) (contents : Bytes → Except Objection ν)
  /-- BERcodec_SEQUENCE under a tag, with an object assigned to that or not. -/
  | sequence (tag : ℕ) (assigned : Bool)

abbrev Run (ν α : Type) : Type := Budget → Except (Raised ν) α × Budget

section Runs

variable {ν α β : Type}

def Run.ok (a : α) : Run ν α := fun st => (.ok a, st)

def Run.raise (e : Raised ν) : Run ν α := fun st => (.error e, st)

def Run.and_then (m : Run ν α) (f : α → Run ν β) : Run ν β := fun st =>
  match m st with
  | (.ok a, st) => f a st
  | (.error e, st) => (.error e, st)

def Run.lift (r : Except (Raised ν) α) : Run ν α := fun st => (r, st)

def refuse (why : Refusal) (remaining : Bytes) : Raised ν := .refused why remaining none

/-- The octets an unknown prefix is shown with. -/
def shown (s : Bytes) : Bytes := if 18 < s.length then s.take 15 ++ [0x2E, 0x2E, 0x2E] else s

/-- `_charge`. -/
def Run.charge : Run ν Unit := fun st =>
  match st.left with
  | none => (.ok (), st)
  | some left =>
    if left = 0 then (.error .too_many_elements, st)
    else (.ok (), { st with left := some (left - 1) })

/-! ## Identifier and length -/

/-- The loop of `BER_num_dec` over `s` from octet `i` on; `all` is what it began with. -/
def num_loop (all : Bytes) : Bytes → ℕ → ℕ → Except (Raised ν) (ℕ × Bytes)
  | [], _, _ => .error (refuse .num_unfinished all)
  | c :: s, i, x =>
    let x := x * 128 + (c &&& 0x7F).toNat
    if c &&& 0x80 = 0 then .ok (x, s)
    else if 32 < i then .error (refuse .num_maximum all)
    else num_loop all s (i + 1) x

/-- What `BER_id_dec` makes of the octets. -/
def ident (s : Bytes) : Except (Raised ν) (ℕ × Bytes) :=
  match s with
  | [] => .error .python
  | x :: s =>
    if x &&& 0x1F ≠ 0x1F then .ok (x.toNat, s)
    else if s = [] then .error (refuse .num_empty s)
    else num_loop s s 0 (x.toNat / 32)

/-- `BER_id_dec`. -/
def id_dec (s : Bytes) : Run ν (ℕ × Bytes) := Run.charge.and_then fun _ => .lift (ident s)

/-- `BER_len_dec`. -/
def len_dec (s : Bytes) : Except (Raised ν) (ℕ × Bytes) :=
  match s with
  | [] => .error .python
  | first :: rest =>
    if first &&& 0x80 = 0 then .ok (first.toNat, rest)
    else
      let tmp_len := (first &&& 0x7F).toNat
      if s.length ≤ tmp_len then .error (refuse (.len_dec (s.length - 1) tmp_len) s)
      else .ok (from_bytes (rest.take tmp_len), rest.drop tmp_len)

/-- `check_type_get_len`, with `check_type` and `check_string`. -/
def get_len (tag : ℕ) (s : Bytes) : Run ν (ℕ × Bytes) :=
  if s = [] then .raise (refuse .empty_object s)
  else
    (id_dec s).and_then fun p =>
      if p.1 ≠ tag then .raise (refuse (.bad_tag p.1) s)
      else if p.2 = [] then .raise (refuse .no_length s)
      else .lift (len_dec p.2)

/-- `check_type_check_len`: the contents and what follows them. -/
def check_len (tag : ℕ) (s : Bytes) : Run ν (Bytes × Bytes) :=
  (get_len tag s).and_then fun p =>
    if p.2.length < p.1 then .raise (refuse (.too_short p.2.length p.1) s)
    else .ok (p.2.take p.1, p.2.drop p.1)

/-! ## The header without what its exceptions carry -/

/-- A run yields what a decoder does, at the same cost, and fails where it fails. -/
def Same (m : Run ν α) (d : Decoder α) : Prop := ∀ st,
  match m st with
  | (.ok a, st') => d st = .ok (a, st')
  | (.error _, _) => ∃ e, d st = .error e

namespace Same

theorem ok (a : α) : Same (.ok a : Run ν α) (.ok a) := fun _ => rfl

theorem raise (e : Raised ν) (e' : BerError) : Same (.raise e : Run ν α) (.raise e') :=
  fun _ => ⟨e', rfl⟩

theorem and_then {m : Run ν α} {d : Decoder α} {f : α → Run ν β} {g : α → Decoder β} (h : Same m d)
    (hf : ∀ a, Same (f a) (g a)) : Same (m.and_then f) (d.and_then g) := by
  intro st
  have hst := h st
  unfold Run.and_then
  rcases hm : m st with ⟨e | a, st'⟩
  · rw [hm] at hst
    obtain ⟨e', he⟩ := hst
    exact ⟨e', Decoder.and_then_of_error he g⟩
  · rw [hm] at hst
    rw [Decoder.and_then_of_ok hst]
    exact hf a st'

/-- Two readings of octets that cost nothing, each other's where they succeed. -/
theorem lift {r : Except (Raised ν) α} {r' : Except BerError α} (h : r.toOption = r'.toOption) :
    Same (.lift r) (.lift r') := by
  intro st
  unfold Run.lift Decoder.lift
  cases r with
  | error e =>
    cases r' with
    | error e' => exact ⟨e', rfl⟩
    | ok a => cases h
  | ok a =>
    cases r' with
    | error e' => cases h
    | ok b =>
      cases h
      rfl

theorem charge : Same (Run.charge : Run ν Unit) Ber.charge := by
  intro st
  unfold Run.charge Ber.charge
  cases st.left with
  | none => rfl
  | some left =>
    dsimp only
    by_cases hleft : left = 0
    · rw [if_pos hleft]
      exact ⟨_, if_pos hleft⟩
    · rw [if_neg hleft]
      exact if_neg hleft

end Same

theorem num_loop_same (all s : Bytes) (i x : ℕ) :
    (num_loop (ν := ν) all s i x).toOption = (num_dec_loop s i x).toOption := by
  induction s generalizing i x with
  | nil => rfl
  | cons c s ih =>
    rw [num_loop, num_dec_loop]
    split
    · rfl
    · split
      · rfl
      · exact ih _ _

/-- **Both models read the same identifier.** -/
theorem id_dec_same (s : Bytes) : Same (id_dec s : Run ν (ℕ × Bytes)) (BER_id_dec s) := by
  refine Same.charge.and_then fun _ => ?_
  cases s with
  | nil => exact Same.raise .python .python
  | cons x s =>
    unfold ident
    dsimp only
    split
    · exact Same.ok _
    · apply Same.lift
      split
      · next hnil =>
        rw [hnil]
        rfl
      · exact num_loop_same s s 0 _

/-- **And the same length.** -/
theorem len_dec_same (s : Bytes) : (len_dec (ν := ν) s).toOption = (BER_len_dec s).toOption := by
  unfold len_dec BER_len_dec
  cases s with
  | nil => rfl
  | cons first rest =>
    dsimp only
    split
    · rfl
    · split
      · rfl
      · rfl

theorem get_len_same (tag : ℕ) (s : Bytes) :
    Same (get_len tag s : Run ν (ℕ × Bytes)) (check_type_get_len tag s) := by
  unfold get_len check_type_get_len check_type
  by_cases hs : s = []
  · rw [if_pos hs, if_pos hs]
    exact fun _ => ⟨_, rfl⟩
  · rw [if_neg hs, if_neg hs]
    intro st
    have hid := id_dec_same (ν := ν) s st
    unfold Run.and_then Decoder.and_then
    rcases hm : id_dec (ν := ν) s st with ⟨e | ⟨p, r⟩, st'⟩
    · rw [hm] at hid
      obtain ⟨e', he⟩ := hid
      rw [he]
      exact ⟨e', rfl⟩
    · rw [hm] at hid
      dsimp only at hid
      rw [hid]
      dsimp only
      by_cases htag : p ≠ tag
      · rw [if_pos htag, if_pos htag]
        exact ⟨_, rfl⟩
      · rw [if_neg htag, if_neg htag]
        by_cases hr : r = []
        · rw [if_pos hr]
          dsimp only [Decoder.ok]
          rw [if_pos hr]
          exact ⟨_, rfl⟩
        · rw [if_neg hr]
          dsimp only [Decoder.ok]
          rw [if_neg hr]
          exact Same.lift (len_dec_same r) st'

/-- **And the same contents**, so what is proved of one header holds of the other. -/
theorem check_len_same (tag : ℕ) (s : Bytes) :
    Same (check_len tag s : Run ν (Bytes × Bytes)) (check_type_check_len tag s) := by
  refine (get_len_same tag s).and_then fun p => ?_
  split
  · exact Same.raise _ _
  · exact Same.ok _

/-! ## The two loops -/

/-- What a constructed value adds to an error out of one of its elements: what follows that element,
and what was decoded before it. -/
def Raised.outward (e : Raised ν) (behind : Bytes) (obj : List (Decoded ν)) : Raised ν :=
  match e with
  | .refused why remaining none => .refused why (remaining ++ behind) (some obj)
  | .refused why remaining (some val) =>
    .refused why (remaining ++ behind) (some (obj ++ [.decoded val]))
  | e => e

/-- `Elements.leftover`: its error has no part in the walk's `except`. -/
def leftover (elts : Elements) (remain : Bytes) : Except (Raised ν) Elements :=
  if remain = [] then .ok elts
  else if elts.last ≤ remain.length then .error (refuse .nothing_consumed remain)
  else .ok { elts with slow := some (remain ++ elts.rest), pos := elts.s.length, ends := [] }

variable (dec : Bytes → Run ν (Decoded ν × Bytes)) (t : Bytes)

/-- The loop of `BERcodec_SEQUENCE.do_dec`, `n` turns at most; `t` follows the contents. -/
def walk_elements : ℕ → Elements → List (Decoded ν) → Run ν (List (Decoded ν))
  | 0, _, obj => .ok obj
  | n + 1, elts, obj =>
    match elts.next with
    | none => .ok obj
    | some (elt, elts) => fun st =>
      match dec elt st with
      -- the budget the failed element has used stays used
      | (.error e, st) => (.error (e.outward (elts.rest ++ t) obj), st)
      | (.ok (o, remain), st) =>
        match leftover elts remain with
        | .error e => (.error e, st)
        | .ok elts => walk_elements n elts (obj ++ [o]) st

/-- `while s: o, s = dec(s)` in the place of that loop, `n` turns at most. -/
def walk_plain : ℕ → Bytes → List (Decoded ν) → Run ν (List (Decoded ν))
  | 0, _, obj => .ok obj
  | n + 1, s, obj =>
    if s = [] then .ok obj
    else fun st =>
      match dec s st with
      | (.error e, st) => (.error (e.outward t obj), st)
      | (.ok (o, s), st) => walk_plain n s (obj ++ [o]) st

end Runs

/-! ## Decoding -/

section Decoding

variable {ν : Type} (context : ℕ → Option (Entry ν)) (safe : Bool)

/-- `BERcodec_SEQUENCE.do_dec`, `elements` or not. -/
def sequence_dec (elements : Bool) (dec : Bytes → Run ν (Decoded ν × Bytes)) (tag : ℕ) (s : Bytes) :
    Run ν (List (Decoded ν) × Bytes) :=
  (get_len tag s).and_then fun p =>
    let content := p.2.take p.1
    let t := p.2.drop p.1
    (if elements then walk_elements dec t content.length (Elements.new content) []
      else walk_plain dec t content.length content []).and_then fun obj =>
        if p.2.length < p.1 then .raise (.refused .sequence_short [] (some obj)) else .ok (obj, t)

/-- `_dec`: with `safe` on, an error becomes an object that swallows all the octets. A tag that is
not the codec's is tried once more a level down. -/
def guarded (again : Bytes → Run ν (Decoded ν × Bytes)) (do_dec : Bytes → Run ν (Decoded ν × Bytes))
    (s : Bytes) : Run ν (Decoded ν × Bytes) := fun st =>
  match do_dec s st with
  | (.ok r, st) => (.ok r, st)
  | (.error e, st) =>
    if safe then
      match e with
      -- before the other BER_Decoding_Errors, of which it is one
      | .refused (.bad_tag _) remaining _ =>
        (again remaining).and_then (fun r => .ok (.badtag r.1, r.2)) st
      | .refused _ _ _ => (.ok (.decoding_error s e, []), st)
      | .asn1_error => (.ok (.decoding_error s e, []), st)
      | _ => (.error e, st)
    else (.error e, st)

/-- `do_dec` of a codec. -/
def entry_dec (dec : Bytes → Run ν (Decoded ν × Bytes)) (entry : Entry ν) (s : Bytes) :
    Run ν (Decoded ν × Bytes) :=
  match entry with
  | .leaf tag contents =>
    (check_len tag s).and_then fun p =>
      match contents p.1 with
      | .ok val => .ok (.value tag val, p.2)
      | .error .contents => .raise (refuse .contents p.1)
      | .error .asn1_error => .raise .asn1_error
      | .error .python => .raise .python
  | .sequence tag assigned =>
    (sequence_dec true dec tag s).and_then fun p =>
      if assigned then .ok (.constructed tag p.1, p.2) else .raise .asn1_error
  | _ => .raise .asn1_error

/-- `BERcodec_Object.do_dec`. -/
def stem_dec (dec : Bytes → Run ν (Decoded ν × Bytes)) (s : Bytes) : Run ν (Decoded ν × Bytes) :=
  if s = [] then .raise (refuse .empty_object s)
  else
    (id_dec s).and_then fun p =>
      match context p.1 with
      | none => .raise (refuse (.prefix_unknown p.1 (shown s)) s)
      | some .missing => .raise .asn1_error
      | some .stem =>
        if p.2 = [] then .raise (refuse .num_empty p.2)
        else
          (Run.lift (len_dec p.2)).and_then fun q =>
            .ok (.badtag_octets (q.2.take q.1), q.2.drop q.1)
      | some entry => guarded safe dec (entry_dec dec entry) s

/-- `BERcodec_Object.dec` inside a decode, `room` levels above the recursion limit. -/
def dec_in : ℕ → Bytes → Run ν (Decoded ν × Bytes)
  | 0, _ => .raise .recursion
  | room + 1, s => guarded safe (dec_in room) (stem_dec context safe (dec_in room)) s

/-- `BERcodec_SEQUENCE.do_dec` of the codec of a tag at `_depth`, over `elements` or in the plain
loop. -/
def sequence_at (elements : Bool) (depth tag : ℕ) (s : Bytes) : Run ν (List (Decoded ν) × Bytes) :=
  if MAX_BER_DEPTH < depth then .raise .recursion
  else sequence_dec elements (dec_in context safe (MAX_BER_DEPTH - depth)) tag s

end Decoding

end Wiry.Ber
