/-
What a decode leaves undecoded and what it raises: an object takes an octet at least, and with
`safe` on nothing is refused.
-/
import Wiry.Ber.Walk

set_option autoImplicit false

namespace Wiry.Ber

open Packet (Bytes slice)

/-! ## Runs -/

section Runs

variable {ν α β : Type}

theorem Run.and_then_ok {m : Run ν α} {f : α → Run ν β} {st st' : Budget} {b : β}
    (h : m.and_then f st = (.ok b, st')) :
    ∃ a mid, m st = (.ok a, mid) ∧ f a mid = (.ok b, st') := by
  unfold Run.and_then at h
  split at h
  · next a mid hm => exact ⟨a, mid, hm, h⟩
  · cases h

theorem Run.and_then_error {m : Run ν α} {f : α → Run ν β} {st st' : Budget} {e : Raised ν}
    (h : m.and_then f st = (.error e, st')) :
    m st = (.error e, st') ∨ ∃ a mid, m st = (.ok a, mid) ∧ f a mid = (.error e, st') := by
  unfold Run.and_then at h
  split at h
  · next a mid hm => exact Or.inr ⟨a, mid, hm, h⟩
  · next e' mid hm =>
    cases h
    exact Or.inl hm

theorem Run.and_then_of_ok {m : Run ν α} {st mid : Budget} {a : α} (h : m st = (.ok a, mid))
    (f : α → Run ν β) : m.and_then f st = f a mid := by
  unfold Run.and_then
  rw [h]

theorem Run.and_then_of_error {m : Run ν α} {st mid : Budget} {e : Raised ν}
    (h : m st = (.error e, mid)) (f : α → Run ν β) : m.and_then f st = (.error e, mid) := by
  unfold Run.and_then
  rw [h]

theorem charge_cases (st : Budget) : (∃ mid, (Run.charge : Run ν Unit) st = (.ok (), mid)) ∨
    (Run.charge : Run ν Unit) st = (.error .too_many_elements, st) := by
  unfold Run.charge
  split
  · exact Or.inl ⟨_, rfl⟩
  · split
    · exact Or.inr rfl
    · exact Or.inl ⟨_, rfl⟩

/-! ## Identifier and length -/

/-- A number that is read leaves less than it was given. -/
theorem num_loop_shorter {all : Bytes} : ∀ {s : Bytes} {i x : ℕ} {p : ℕ × Bytes},
    num_loop (ν := ν) all s i x = .ok p → p.2.length < s.length := by
  intro s
  induction s with
  | nil =>
    intro i x p h
    cases h
  | cons c s ih =>
    intro i x p h
    unfold num_loop at h
    dsimp only at h
    split at h
    · cases h
      exact Nat.lt_succ_self _
    · split at h
      · cases h
      · exact (ih h).trans (Nat.lt_succ_self _)

/-- A number is refused for being unfinished or for being too long, with the whole string in the
message. -/
theorem num_loop_refused {all : Bytes} : ∀ {s : Bytes} {i x : ℕ} {e : Raised ν},
    num_loop all s i x = .error e →
      e = refuse .num_unfinished all ∨ e = refuse .num_maximum all := by
  intro s
  induction s with
  | nil =>
    intro i x e h
    cases h
    exact Or.inl rfl
  | cons c s ih =>
    intro i x e h
    unfold num_loop at h
    dsimp only at h
    split at h
    · cases h
    · split at h
      · cases h
        exact Or.inr rfl
      · exact ih h

theorem ident_shorter {s : Bytes} {p : ℕ × Bytes} (h : ident (ν := ν) s = .ok p) :
    p.2.length < s.length := by
  unfold ident at h
  split at h
  · cases h
  · split at h
    · cases h
      exact Nat.lt_succ_self _
    · split at h
      · cases h
      · exact (num_loop_shorter h).trans (Nat.lt_succ_self _)

/-- So does a length. -/
theorem len_dec_shorter {s : Bytes} {p : ℕ × Bytes} (h : len_dec (ν := ν) s = .ok p) :
    p.2.length < s.length := by
  unfold len_dec at h
  split at h
  · cases h
  · next first rest =>
    split at h
    · cases h
      exact Nat.lt_succ_self _
    · dsimp only at h
      split at h
      · cases h
      · cases h
        rw [List.length_drop, List.length_cons]
        omega

/-- Not a BER_BadTag_Decoding_Error. -/
def Raised.fits (e : Raised ν) : Prop :=
  ∀ tag remaining decoded, e ≠ .refused (.bad_tag tag) remaining decoded

/-- An identifier that is refused is refused by the decoder's own exception. -/
theorem ident_fits {s : Bytes} {e : Raised ν} (h : ident s = .error e) : e.fits := by
  intro tag remaining decoded he
  subst he
  unfold ident at h
  split at h
  · cases h
  · split at h
    · cases h
    · split at h
      · cases h
      · rcases num_loop_refused h with he | he
        · cases he
        · cases he

/-- So is a length. -/
theorem len_dec_fits {s : Bytes} {e : Raised ν} (h : len_dec s = .error e) : e.fits := by
  intro tag remaining decoded he
  subst he
  unfold len_dec at h
  split at h
  · cases h
  · split at h
    · cases h
    · dsimp only at h
      split at h
      · cases h
      · cases h

theorem id_dec_ok {s : Bytes} {st st' : Budget} {p : ℕ × Bytes}
    (h : id_dec (ν := ν) s st = (.ok p, st')) : ident (ν := ν) s = .ok p := by
  obtain ⟨a, mid, -, h⟩ := Run.and_then_ok h
  exact congrArg Prod.fst h

theorem id_dec_fits {s : Bytes} {st st' : Budget} {e : Raised ν}
    (h : id_dec s st = (.error e, st')) : e.fits := by
  rcases Run.and_then_error h with hcharge | ⟨a, mid, -, h⟩
  · rcases charge_cases (ν := ν) st with ⟨mid, hok⟩ | hno
    · rw [hok] at hcharge
      cases hcharge
    · rw [hno] at hcharge
      cases hcharge
      exact fun _ _ _ he => nomatch he
  · exact ident_fits (congrArg Prod.fst h)

theorem get_len_shorter {tag : ℕ} {s : Bytes} {st st' : Budget} {p : ℕ × Bytes}
    (h : get_len (ν := ν) tag s st = (.ok p, st')) : p.2.length < s.length := by
  unfold get_len at h
  split at h
  · cases h
  · obtain ⟨q, mid, hid, h⟩ := Run.and_then_ok h
    split at h
    · cases h
    · split at h
      · cases h
      · exact (len_dec_shorter (congrArg Prod.fst h)).trans (ident_shorter (id_dec_ok hid))

/-- A tag that does not fit is refused over all the octets. -/
theorem get_len_bad_tag {tag : ℕ} {s : Bytes} {st st' : Budget} {e : Raised ν}
    (h : get_len tag s st = (.error e, st')) :
    (∃ got, e = refuse (.bad_tag got) s) ∨ e.fits := by
  unfold get_len at h
  split at h
  · cases h
    exact Or.inr fun _ _ _ he => nomatch he
  · rcases Run.and_then_error h with h | ⟨q, mid, -, h⟩
    · exact Or.inr (id_dec_fits h)
    · split at h
      · cases h
        exact Or.inl ⟨_, rfl⟩
      · split at h
        · cases h
          exact Or.inr fun _ _ _ he => nomatch he
        · exact Or.inr (len_dec_fits (congrArg Prod.fst h))

/-! ## Decoders -/

variable (safe : Bool)

/-- What `dec` leaves is shorter than what it was given, and with `safe` on it refuses nothing. -/
structure Steady (dec : Bytes → Run ν (Decoded ν × Bytes)) : Prop where
  progress : ∀ {s st o remain st'}, dec s st = (.ok (o, remain), st') →
    remain = [] ∨ remain.length < s.length
  accepts : ∀ {s st why remaining decoded st'}, safe = true →
    dec s st ≠ (.error (.refused why remaining decoded), st')

/-- The same of a `do_dec`, which may refuse: with `safe` on, a bad tag over all of its octets. -/
structure Plain (do_dec : Bytes → Run ν (Decoded ν × Bytes)) : Prop where
  progress : ∀ {s st o remain st'}, do_dec s st = (.ok (o, remain), st') →
    remain = [] ∨ remain.length < s.length
  bad_tag : ∀ {s st e st'}, safe = true → do_dec s st = (.error e, st') →
    (∃ got, e = refuse (.bad_tag got) s) ∨ e.fits

variable {safe}

/-- A guarded decoder is steady when what it guards is plain: a failure under `safe` turns into the
error object, which takes the whole string. -/
theorem guarded_steady {again do_dec : Bytes → Run ν (Decoded ν × Bytes)}
    (hagain : Steady safe again) (hdo : Plain safe do_dec) :
    Steady safe (guarded safe again do_dec) := by
  constructor
  · intro s st o remain st' h
    unfold guarded at h
    split at h
    · next r mid hr =>
      cases h
      exact hdo.progress hr
    · next e mid he =>
      split at h
      · next hsafe =>
        split at h
        · next got remaining decoded =>
          -- the second try has the same octets, so the bound is the same
          obtain ⟨r, mid', hr, h⟩ := Run.and_then_ok h
          cases h
          rcases hdo.bad_tag hsafe he with ⟨got', heq⟩ | hfits
          · cases heq
            exact hagain.progress hr
          · exact absurd rfl (hfits _ _ _)
        · cases h
          exact Or.inl rfl
        · cases h
          exact Or.inl rfl
        · cases h
      · cases h
  · intro s st why remaining decoded st' hsafe h
    unfold guarded at h
    split at h
    · cases h
    · rw [if_pos hsafe] at h
      split at h
      · rcases Run.and_then_error h with h | ⟨r, mid, -, h⟩
        · exact hagain.accepts hsafe h
        · cases h
      · cases h
      · cases h
      · next _ hnot _ =>
        cases h
        exact absurd rfl (hnot _ _ _)

end Runs

section Decoding

variable {ν : Type} {safe : Bool} {dec : Bytes → Run ν (Decoded ν × Bytes)}

theorem outward_stopped {e : Raised ν}
    (h : ∀ why remaining decoded, e ≠ .refused why remaining decoded)
    (behind : Bytes) (obj : List (Decoded ν)) : e.outward behind obj = e := by
  cases e with
  | refused why remaining decoded => exact absurd rfl (h _ _ _)
  | _ => rfl

/-- The element handed out is the one the walk can take back. -/
theorem next_last {elts elts' : Elements} {elt : Bytes} (h : elts.next = some (elt, elts')) :
    elts'.last = elt.length := by
  unfold Elements.next at h
  split at h
  · split at h
    · cases h
    · cases h
      rfl
  · split at h
    · cases h
      rfl
    · dsimp only at h
      split at h
      · cases h
        rfl
      · cases h

theorem leftover_ok {elts elts' : Elements} {elt remain : Bytes} (h : elts.next = some (elt, elts'))
    (hprogress : remain = [] ∨ remain.length < elt.length) :
    ∃ elts'', leftover (ν := ν) elts' remain = .ok elts'' := by
  unfold leftover
  rw [next_last h]
  split
  · exact ⟨_, rfl⟩
  · next hne =>
    rw [if_neg (Nat.not_le.2 (hprogress.resolve_left hne))]
    exact ⟨_, rfl⟩

/-- With `safe` on the walk is not refused either. -/
theorem walk_elements_stopped (hdec : Steady safe dec) (hsafe : safe = true) (t : Bytes) (n : ℕ) :
    ∀ {elts : Elements} {obj : List (Decoded ν)} {st st' : Budget} {e : Raised ν},
      walk_elements dec t n elts obj st = (.error e, st') →
        ∀ why remaining decoded, e ≠ .refused why remaining decoded := by
  induction n with
  | zero =>
    intro elts obj st st' e h
    cases h
  | succ n ih =>
    intro elts obj st st' e h
    unfold walk_elements at h
    cases hnext : elts.next with
    | none =>
      rw [hnext] at h
      cases h
    | some p =>
      rw [hnext] at h
      dsimp only at h
      split at h
      · next e' mid he =>
        -- an element's refusal has become an object, so nothing is added to the error
        have hstopped : ∀ why remaining decoded, e' ≠ .refused why remaining decoded := by
          rintro why remaining decoded rfl
          exact hdec.accepts hsafe he
        rw [outward_stopped hstopped] at h
        cases h
        exact hstopped
      · next o remain mid ho =>
        obtain ⟨elts'', hleft⟩ := leftover_ok (ν := ν) hnext (hdec.progress ho)
        rw [hleft] at h
        exact ih h

theorem check_len_shorter {tag : ℕ} {s : Bytes} {st st' : Budget} {p : Bytes × Bytes}
    (h : check_len (ν := ν) tag s st = (.ok p, st')) : p.2.length < s.length := by
  obtain ⟨q, mid, hq, h⟩ := Run.and_then_ok h
  split at h
  · cases h
  · cases h
    rw [List.length_drop]
    exact (Nat.sub_le _ _).trans_lt (get_len_shorter hq)

theorem check_len_bad_tag {tag : ℕ} {s : Bytes} {st st' : Budget} {e : Raised ν}
    (h : check_len tag s st = (.error e, st')) : (∃ got, e = refuse (.bad_tag got) s) ∨ e.fits := by
  rcases Run.and_then_error h with h | ⟨q, mid, -, h⟩
  · exact get_len_bad_tag h
  · split at h
    · cases h
      exact Or.inr fun _ _ _ he => nomatch he
    · cases h

/-- So does a sequence that is read. -/
theorem sequence_shorter {tag : ℕ} {s : Bytes} {st st' : Budget} {p : List (Decoded ν) × Bytes}
    (h : sequence_dec true dec tag s st = (.ok p, st')) : p.2.length < s.length := by
  obtain ⟨q, mid, hq, h⟩ := Run.and_then_ok h
  obtain ⟨obj, mid', -, h⟩ := Run.and_then_ok h
  split at h
  · cases h
  · cases h
    rw [List.length_drop]
    exact (Nat.sub_le _ _).trans_lt (get_len_shorter hq)

theorem sequence_bad_tag (hdec : Steady safe dec) (hsafe : safe = true) {tag : ℕ} {s : Bytes}
    {st st' : Budget} {e : Raised ν} (h : sequence_dec true dec tag s st = (.error e, st')) :
    (∃ got, e = refuse (.bad_tag got) s) ∨ e.fits := by
  rcases Run.and_then_error h with h | ⟨q, mid, -, h⟩
  · exact get_len_bad_tag h
  · rcases Run.and_then_error h with h | ⟨obj, mid', -, h⟩
    · exact Or.inr fun _ _ _ => walk_elements_stopped hdec hsafe _ _ h _ _ _
    · split at h
      · cases h
        exact Or.inr fun _ _ _ he => nomatch he
      · cases h

/-- Every entry of the codec table decodes plainly when its members decode steadily. -/
theorem entry_plain (hdec : Steady safe dec) (entry : Entry ν) :
    Plain safe (entry_dec dec entry) := by
  -- First what a success leaves, then what a failure under `safe` looks like; each by the entry's
  -- kind.
  constructor
  · intro s st o remain st' h
    cases entry with
    | leaf tag contents =>
      obtain ⟨p, mid, hp, h⟩ := Run.and_then_ok h
      rcases hval : contents p.1 with (_ | _ | _) | val
      · rw [hval] at h
        cases h
      · rw [hval] at h
        cases h
      · rw [hval] at h
        cases h
      · rw [hval] at h
        cases h
        exact Or.inr (check_len_shorter hp)
    | sequence tag assigned =>
      obtain ⟨p, mid, hp, h⟩ := Run.and_then_ok h
      cases assigned with
      | false => cases h
      | true =>
        cases h
        exact Or.inr (sequence_shorter hp)
    | missing => cases h
    | stem => cases h
  -- A content that is refused carries its own octets, so it fits the element.
  · intro s st e st' hsafe h
    cases entry with
    | leaf tag contents =>
      rcases Run.and_then_error h with h | ⟨p, mid, -, h⟩
      · exact check_len_bad_tag h
      · rcases hval : contents p.1 with (_ | _ | _) | val
        · rw [hval] at h
          cases h
          exact Or.inr fun _ _ _ he => nomatch he
        · rw [hval] at h
          cases h
          exact Or.inr fun _ _ _ he => nomatch he
        · rw [hval] at h
          cases h
          exact Or.inr fun _ _ _ he => nomatch he
        · rw [hval] at h
          cases h
    | sequence tag assigned =>
      rcases Run.and_then_error h with h | ⟨p, mid, -, h⟩
      · exact sequence_bad_tag hdec hsafe h
      · cases assigned with
        | false =>
          cases h
          exact Or.inr fun _ _ _ he => nomatch he
        | true => cases h
    | missing =>
      cases h
      exact Or.inr fun _ _ _ he => nomatch he
    | stem =>
      cases h
      exact Or.inr fun _ _ _ he => nomatch he

variable (context : ℕ → Option (Entry ν))

/-- So does the stem: it hands the string to one entry, found by the identifier. -/
theorem stem_plain (hdec : Steady safe dec) : Plain safe (stem_dec context safe dec) := by
  -- The identifier picks the entry; the stem itself adds the guard around it.
  have hguarded (entry : Entry ν) := guarded_steady hdec (entry_plain hdec entry)
  constructor
  · intro s st o remain st' h
    unfold stem_dec at h
    split at h
    · cases h
    · obtain ⟨p, mid, hp, h⟩ := Run.and_then_ok h
      rcases hentry : context p.1 with _ | _ | _ | ⟨tag, contents⟩ | ⟨tag, assigned⟩
      · rw [hentry] at h
        cases h
      · rw [hentry] at h
        cases h
      · rw [hentry] at h
        dsimp only at h
        split at h
        · cases h
        · obtain ⟨q, mid', hq, h⟩ := Run.and_then_ok h
          cases h
          have hq := len_dec_shorter (congrArg Prod.fst hq)
          have hp := ident_shorter (id_dec_ok hp)
          rw [List.length_drop]
          exact Or.inr (by omega)
      · rw [hentry] at h
        exact (hguarded _).progress h
      · rw [hentry] at h
        exact (hguarded _).progress h
  -- Failures come from the identifier or from the entry that was picked.
  · intro s st e st' hsafe h
    unfold stem_dec at h
    split at h
    · cases h
      exact Or.inr fun _ _ _ he => nomatch he
    · rcases Run.and_then_error h with h | ⟨p, mid, -, h⟩
      · exact Or.inr (id_dec_fits h)
      · have hlater (entry : Entry ν)
            (h : guarded safe dec (entry_dec dec entry) s mid = (.error e, st')) : e.fits := by
          rintro tag remaining decoded rfl
          exact (hguarded entry).accepts hsafe h
        rcases hentry : context p.1 with _ | _ | _ | ⟨tag, contents⟩ | ⟨tag, assigned⟩
        · rw [hentry] at h
          cases h
          exact Or.inr fun _ _ _ he => nomatch he
        · rw [hentry] at h
          cases h
          exact Or.inr fun _ _ _ he => nomatch he
        · rw [hentry] at h
          dsimp only at h
          split at h
          · cases h
            exact Or.inr fun _ _ _ he => nomatch he
          · rcases Run.and_then_error h with h | ⟨q, mid', -, h⟩
            · exact Or.inr (len_dec_fits (congrArg Prod.fst h))
            · cases h
        · rw [hentry] at h
          exact Or.inr (hlater _ h)
        · rw [hentry] at h
          exact Or.inr (hlater _ h)

theorem dec_in_steady (safe : Bool) : ∀ room, Steady safe (dec_in context safe room)
  | 0 => by
    constructor
    · intro s st o remain st' h
      cases h
    · intro s st why remaining decoded st' hsafe h
      cases h
  | room + 1 =>
    guarded_steady (dec_in_steady safe room) (stem_plain context (dec_in_steady safe room))

end Decoding

end Wiry.Ber
