/-
What `enc` of `python/wiry/asn1/ber.py` writes, `BERcodec_Object.dec` reads back.

`Reads` says what a decoder does to its budget: it reads so many identifiers and
yields its result, or there are not that many left. Every element's identifier is read twice,
once to find its codec and once by that.
-/
import Wiry.Ber.Contents

set_option autoImplicit false

namespace Wiry.Ber

open Packet (Bytes slice)

/-! ## What a decoder reads -/

section Reads

variable {α β : Type}

/-- The decoder reads `n` identifiers and yields `a`, if the budget allows for them. -/
def Reads (m : Decoder α) (n : ℕ) (a : α) : Prop :=
  ∀ left nesting, m ⟨some left, nesting⟩ =
    if n ≤ left then .ok (a, ⟨some (left - n), nesting⟩) else .error .too_many_elements

theorem Reads.ok (a : α) : Reads (Decoder.ok a) 0 a := by
  intro left nesting
  rw [if_pos (Nat.zero_le left)]
  rfl

theorem Reads.lift {r : Except BerError α} {a : α} (h : r = .ok a) : Reads (Decoder.lift r) 0 a := by
  rw [h]
  exact Reads.ok a

/-- Two readings in a row take the sum of their budgets. -/
theorem Reads.and_then {m : Decoder α} {f : α → Decoder β} {n k : ℕ} {a : α} {b : β}
    (hm : Reads m n a) (hf : Reads (f a) k b) : Reads (m.and_then f) (n + k) b := by
  intro left nesting
  have hfirst := hm left nesting
  by_cases hn : n ≤ left
  · rw [if_pos hn] at hfirst
    rw [Decoder.and_then_of_ok hfirst, hf]
    by_cases hk : k ≤ left - n
    · rw [if_pos hk, if_pos (by omega), Nat.sub_sub]
    · rw [if_neg hk, if_neg (by omega)]
  · rw [if_neg hn] at hfirst
    rw [Decoder.and_then_of_error hfirst, if_neg (by omega)]

/-- What reads no identifier costs nothing more. -/
theorem Reads.then_free {m : Decoder α} {f : α → Decoder β} {n : ℕ} {a : α} {b : β}
    (hm : Reads m n a) (hf : Reads (f a) 0 b) : Reads (m.and_then f) n b :=
  hm.and_then hf

theorem reads_charge : Reads charge 1 () := by
  intro left nesting
  unfold charge
  dsimp only
  by_cases hleft : left = 0
  · rw [if_pos hleft, if_neg (by omega)]
  · rw [if_neg hleft, if_pos (by omega)]

theorem reads_id {x : UInt8} (h : x &&& 0x1F ≠ 0x1F) (s : Bytes) :
    Reads (BER_id_dec (x :: s)) 1 (x.toNat, s) := by
  unfold BER_id_dec
  refine reads_charge.then_free ?_
  dsimp only
  rw [if_pos h]
  exact Reads.ok _

/-- So does the check of the type. -/
theorem reads_type {x : UInt8} (h : x &&& 0x1F ≠ 0x1F) (s : Bytes) :
    Reads (check_type x.toNat (x :: s)) 1 s := by
  unfold check_type
  rw [if_neg (List.cons_ne_nil x s)]
  refine (reads_id h s).then_free ?_
  rw [if_neg (not_not.2 rfl)]
  exact Reads.ok s

end Reads

/-! ## One element -/

theorem slice_middle (before mid after : Bytes) {a b : ℕ} (ha : a = before.length)
    (hb : b = before.length + mid.length) : slice (before ++ mid ++ after) a b = mid := by
  unfold slice
  rw [ha, hb, ← List.length_append, List.take_left, List.drop_left]

/-- An element with a low tag: identifier, length and contents. -/
structure IsTlv (tag : UInt8) (content b : Bytes) : Prop where
  low : tag &&& 0x1F ≠ 0x1F
  written : ∃ size len, BER_len_enc content.length size = .ok len ∧ b = tag :: (len ++ content)

theorem isTlv_of_tlv {tag : UInt8} {size : ℕ} {content b : Bytes} (low : tag &&& 0x1F ≠ 0x1F)
    (h : tlv tag size content = .ok b) : IsTlv tag content b := by
  unfold tlv at h
  cases hlen : BER_len_enc content.length size with
  | error e =>
    rw [hlen] at h
    cases h
  | ok len =>
    rw [hlen] at h
    cases h
    exact ⟨low, size, len, hlen, rfl⟩

namespace IsTlv

variable {tag : UInt8} {content b : Bytes}

/-- Type and length of a whole element are read back for one unit, leaving the content and what
follows. -/
theorem reads_len (h : IsTlv tag content b) (r : Bytes) :
    Reads (check_type_get_len tag.toNat (b ++ r)) 1 (content.length, content ++ r) := by
  obtain ⟨low, size, len, hlen, rfl⟩ := h
  have hdec := BER_len_dec_enc hlen (content ++ r)
  have hne : len ++ (content ++ r) ≠ [] := fun hnil => by
    rw [hnil] at hdec
    cases hdec
  unfold check_type_get_len
  rw [List.cons_append, List.append_assoc]
  refine (reads_type low _).then_free ?_
  rw [if_neg hne]
  exact Reads.lift hdec

theorem reads_content (h : IsTlv tag content b) (r : Bytes) :
    Reads (check_type_check_len tag.toNat (b ++ r)) 1 (content, r) := by
  unfold check_type_check_len
  refine (h.reads_len r).then_free ?_
  dsimp only
  rw [if_neg (by rw [List.length_append]; omega), List.take_left, List.drop_left]
  exact Reads.ok _

/-- The element scan finds where an element ends. -/
theorem tlv_end_eq (h : IsTlv tag content b) (before after : Bytes) :
    tlv_end (before ++ b ++ after) before.length = some (before.length + b.length) := by
  obtain ⟨low, size, len, hlen, rfl⟩ := h
  -- The octets of the element inside the longer string, first its identifier and then one by one.
  have hid : (before ++ tag :: (len ++ content) ++ after)[before.length]? = some tag := by
    rw [List.append_assoc, List.getElem?_append_right le_rfl, Nat.sub_self]
    rfl
  have hnext (i : ℕ) : (before ++ tag :: (len ++ content) ++ after)[before.length + 1 + i]?
      = (len ++ content ++ after)[i]? := by
    rw [List.append_assoc, List.getElem?_append_right (by omega), List.cons_append,
      show before.length + 1 + i - before.length = i + 1 from by omega, List.getElem?_cons_succ]
  have hfirst := hnext 0
  rw [Nat.add_zero] at hfirst
  have hall : (before ++ tag :: (len ++ content) ++ after).length
      = before.length + 1 + len.length + content.length + after.length := by
    simp only [List.length_append, List.length_cons]
    omega
  unfold tlv_end
  rw [hid]
  dsimp only
  rw [if_neg low, hfirst]
  -- The short form: one octet of length.
  unfold BER_len_enc at hlen
  split at hlen
  · next hshort =>
    cases hlen
    obtain ⟨htop, -, hnat⟩ := plain_octet (show content.length < 128 by omega)
    simp only [List.length_cons, List.length_nil] at hall
    simp only [List.cons_append, List.nil_append, List.getElem?_cons_zero, List.length_cons] at hall ⊢
    rw [if_neg (not_not.2 htop), hnat, if_neg (by omega)]
    apply congrArg some
    omega
  · dsimp only at hlen
    split at hlen
    · cases hlen
    · next hfits =>
      cases hlen
      -- The long form: the count of length octets, and they read as the content's length.
      obtain ⟨octets, hoctets⟩ : ∃ o, o = len_octets content.length size := ⟨_, rfl⟩
      rw [← hoctets] at hnext hall hfits ⊢
      obtain ⟨htop, hnat⟩ := marked_octet (show octets.length < 128 by omega)
      have hslice : slice (before ++ tag :: (UInt8.ofNat (octets.length ||| 0x80) :: octets ++ content)
          ++ after) (before.length + 1 + 1) (before.length + 1 + 1 + octets.length) = octets := by
        have hsplit : before ++ tag :: (UInt8.ofNat (octets.length ||| 0x80) :: octets ++ content)
            ++ after = before ++ [tag, UInt8.ofNat (octets.length ||| 0x80)] ++ octets
              ++ (content ++ after) := by
          simp only [List.append_assoc, List.cons_append, List.nil_append]
        rw [hsplit]
        apply slice_middle
        · rw [List.length_append]
          rfl
        · rw [List.length_append]
          rfl
      simp only [List.cons_append, List.getElem?_cons_zero, List.length_cons] at hall hslice ⊢
      rw [if_pos htop, hnat, if_neg (by omega), hslice, hoctets, from_bytes_len_octets, ← hoctets,
        if_neg (by omega)]
      apply congrArg some
      simp only [List.length_append]
      omega

end IsTlv

/-! ## Objects -/

section Objects

variable {ω : Type}

mutual

/-- An object an encoder takes: its OID text is that of arcs, and there is no other object in it. -/
def Obj.Valid : Obj ω → Prop
  | .OID val => ∃ a : Arcs, val = a.text
  | .SEQUENCE val => Obj.AllValid val
  | .SET val => Obj.AllValid val
  | .other _ => False
  | .INTEGER _ => True
  | .BIT_STRING _ => True
  | .STRING _ => True

def Obj.AllValid : List (Obj ω) → Prop
  | [] => True
  | x :: rest => x.Valid ∧ Obj.AllValid rest

end

mutual

/-- How far an object's elements are nested in it. -/
def Obj.depth : Obj ω → ℕ
  | .SEQUENCE val => Obj.depth_all val
  | .SET val => Obj.depth_all val
  | .INTEGER _ => 0
  | .BIT_STRING _ => 0
  | .STRING _ => 0
  | .OID _ => 0
  | .other _ => 0

def Obj.depth_all : List (Obj ω) → ℕ
  | [] => 0
  | x :: rest => max (x.depth + 1) (Obj.depth_all rest)

end

mutual

/-- How many elements an object is encoded as. -/
def Obj.count : Obj ω → ℕ
  | .SEQUENCE val => 1 + Obj.count_all val
  | .SET val => 1 + Obj.count_all val
  | .INTEGER _ => 1
  | .BIT_STRING _ => 1
  | .STRING _ => 1
  | .OID _ => 1
  | .other _ => 1

def Obj.count_all : List (Obj ω) → ℕ
  | [] => 0
  | x :: rest => x.count + Obj.count_all rest

end

variable (other : ℕ → Bytes → Decoder (ω × Bytes)) (other_enc : ω → Except BerError Bytes) (long : ℕ)

/-- Whatever follows its encoding, the object's codec reads it back. -/
def Obj.ReadBack (x : Obj ω) : Prop :=
  ∀ {size : Option ℕ} {b : Bytes}, x.enc other_enc long size = .ok b →
    ∃ tag content, IsTlv tag content b ∧ ∀ {room : ℕ}, x.depth ≤ room → room ≤ MAX_BER_DEPTH →
      ∀ r, ∃ n, n + 1 = 2 * x.count
        ∧ Reads (codec_do_dec other (dec_at other room) tag.toNat (b ++ r)) n (x, r)

/-- The walk over the encodings of elements, wherever it is, yields them. -/
def Obj.AllReadBack (xs : List (Obj ω)) : Prop :=
  ∀ {bs : Bytes}, Obj.enc_all other_enc long xs = .ok bs → ∀ {room : ℕ},
    Obj.depth_all xs ≤ room → room ≤ MAX_BER_DEPTH → ∀ (before : Bytes) {n : ℕ}, bs.length ≤ n →
      ∀ (last : ℕ) (obj : List (Obj ω)),
        Reads (walk (dec_at other room) n
          ⟨before ++ bs, tlv_ends_from (before ++ bs) before.length, before.length, none, last⟩ obj)
          (2 * Obj.count_all xs) (obj ++ xs)

variable {other other_enc long}

/-- An element of a constructed value is found by its tag and read by its codec. -/
theorem Obj.ReadBack.element {x : Obj ω} (h : x.ReadBack other other_enc long) {size : Option ℕ}
    {b : Bytes} (henc : x.enc other_enc long size = .ok b) {room : ℕ} (hdepth : x.depth ≤ room)
    (hroom : room < MAX_BER_DEPTH) (r : Bytes) :
    Reads (dec_at other (room + 1) (b ++ r)) (2 * x.count) (x, r) := by
  obtain ⟨tag, content, htlv, hread⟩ := h henc
  obtain ⟨n, hn, hcodec⟩ := hread hdepth hroom.le r
  obtain ⟨low, size, len, hlen, rfl⟩ := htlv
  have hdeep : MAX_BER_DEPTH - room ≠ 0 := by omega
  unfold dec_at object_do_dec budgeted
  rw [if_neg hdeep, List.cons_append, if_neg (List.cons_ne_nil _ _), ← hn, Nat.add_comm]
  refine (reads_id low _).and_then ?_
  rw [if_neg hdeep]
  exact hcodec

/-- No objects are read back for nothing. -/
theorem Obj.allReadBack_nil : Obj.AllReadBack other other_enc long [] := by
  intro bs henc room _ _ before n _ last obj
  cases henc
  rw [List.append_nil, List.append_nil]
  have hends : tlv_ends_from before before.length = [] := by
    apply tlv_ends_from_none
    cases hstop : tlv_end before before.length with
    | none => rfl
    | some stop =>
      have hgt := tlv_end_gt hstop
      omega
  rw [hends]
  cases n with
  | zero => exact Reads.ok obj
  | succ n =>
    unfold walk Elements.next
    dsimp only
    rw [if_neg (Nat.lt_irrefl _)]
    exact Reads.ok obj

/-- Objects in a row are read back when each is: the head's octets are cut off the front of the
string, and the rest is the tail's. -/
theorem Obj.allReadBack_cons {x : Obj ω} {xs : List (Obj ω)} (hx : x.ReadBack other other_enc long)
    (hxs : Obj.AllReadBack other other_enc long xs) :
    Obj.AllReadBack other other_enc long (x :: xs) := by
  intro bs henc room hdepth hroom before n hn last obj
  rw [Obj.enc_all] at henc
  cases hb : x.enc other_enc long none with
  | error e =>
    rw [hb] at henc
    cases henc
  | ok b =>
    rw [hb] at henc
    dsimp only at henc
    cases hrest : Obj.enc_all other_enc long xs with
    | error e =>
      rw [hrest] at henc
      cases henc
    | ok rest =>
      rw [hrest] at henc
      cases henc
      rw [Obj.depth_all, Nat.max_le] at hdepth
      obtain ⟨tag, content, htlv, -⟩ := hx hb
      have hend := htlv.tlv_end_eq before rest
      rw [List.append_assoc] at hend
      -- the scan cuts off the first element and goes on behind it
      have hends : tlv_ends_from (before ++ (b ++ rest)) before.length = (before.length + b.length)
          :: tlv_ends_from (before ++ (b ++ rest)) (before.length + b.length) :=
        tlv_ends_from_some hend
      have hpos : 0 < b.length := by
        obtain ⟨-, size, len, -, rfl⟩ := htlv
        exact Nat.succ_pos _
      have hchunk : slice (before ++ (b ++ rest)) before.length (before.length + b.length) = b := by
        rw [← List.append_assoc]
        exact slice_middle before b rest rfl rfl
      obtain ⟨n, rfl⟩ : ∃ k, n = k + 1 := by
        rw [List.length_append] at hn
        exact ⟨n - 1, by omega⟩
      obtain ⟨room, rfl⟩ : ∃ k, room = k + 1 := ⟨room - 1, by omega⟩
      have hread := hx.element hb (show x.depth ≤ room by omega) (by omega) []
      rw [List.append_nil] at hread
      have hlater := hxs hrest hdepth.2 hroom (before ++ b) (n := n)
        (by rw [List.length_append] at hn; omega) b.length (obj ++ [x])
      rw [List.append_assoc, List.length_append, List.append_assoc] at hlater
      rw [Obj.count_all, Nat.mul_add, hends]
      unfold walk Elements.next
      dsimp only
      rw [hchunk]
      refine hread.and_then ?_
      -- its codec leaves nothing of it
      have hleft : ∀ e : Elements, e.leftover [] = .ok e := fun e => if_pos rfl
      rw [← Nat.zero_add (2 * Obj.count_all xs)]
      refine (Reads.lift (hleft _)).and_then ?_
      exact hlater

/-! ### The codecs -/

/-- An object whose codec only reads its contents. -/
theorem Obj.readBack_leaf {x : Obj ω} (tag : UInt8) (content : Bytes) (low : tag &&& 0x1F ≠ 0x1F)
    (hcount : x.count = 1)
    (henc : ∀ {size b}, x.enc other_enc long size = .ok b → tlv tag (size.getD 0) content = .ok b)
    (hdec : ∀ {room b} r, IsTlv tag content b →
      Reads (codec_do_dec other (dec_at other room) tag.toNat (b ++ r)) 1 (x, r)) :
    x.ReadBack other other_enc long := by
  intro size b hb
  have htlv := isTlv_of_tlv low (henc hb)
  refine ⟨tag, content, htlv, fun _ _ r => ⟨1, ?_, hdec r htlv⟩⟩
  rw [hcount]

/-- An integer is read back. -/
theorem Obj.readBack_INTEGER (val : ℤ) : (Obj.INTEGER val : Obj ω).ReadBack other other_enc long := by
  refine readBack_leaf 0x02 (int_octets val).reverse (by decide) rfl ?_ ?_
  · intro size b hb
    exact hb
  · intro room b r htlv
    refine (htlv.reads_content r).then_free ?_
    rw [(from_bytes_signed_int_octets val).2]
    exact Reads.ok _

/-- So is a bit string. -/
theorem Obj.readBack_BIT_STRING (val : List Bool) :
    (Obj.BIT_STRING val : Obj ω).ReadBack other other_enc long := by
  refine readBack_leaf 0x03 (bit_string_octets val) (by decide) rfl ?_ ?_
  · intro size b hb
    exact hb
  · intro room b r htlv
    refine (htlv.reads_content r).then_free ?_
    rw [bit_string_contents_octets]
    exact Reads.lift rfl

/-- So is a string. -/
theorem Obj.readBack_STRING (val : Bytes) :
    (Obj.STRING val : Obj ω).ReadBack other other_enc long := by
  refine readBack_leaf 0x04 val (by decide) rfl ?_ ?_
  · intro size b hb
    exact hb
  · intro room b r htlv
    exact (htlv.reads_content r).then_free (Reads.ok _)

theorem Obj.readBack_OID (a : Arcs) : (Obj.OID a.text : Obj ω).ReadBack other other_enc long := by
  obtain ⟨s, hoctets, hobject⟩ := oid_object_octets a
  refine readBack_leaf 0x06 s (by decide) rfl ?_ ?_
  · intro size b hb
    rw [Obj.enc, hoctets] at hb
    exact hb
  · intro room b r htlv
    refine (htlv.reads_content r).then_free ?_
    rw [hobject]
    exact Reads.lift rfl

/-- The elements of a constructed value, all of them and nothing else. -/
theorem Obj.AllReadBack.contents {xs : List (Obj ω)} (h : Obj.AllReadBack other other_enc long xs)
    {tag : UInt8} {ll b : Bytes} (hll : Obj.enc_all other_enc long xs = .ok ll)
    (htlv : IsTlv tag ll b) {room : ℕ} (hdepth : Obj.depth_all xs ≤ room) (hroom : room ≤ MAX_BER_DEPTH)
    (r : Bytes) :
    Reads (sequence_do_dec (dec_at other room) tag.toNat (b ++ r)) (1 + 2 * Obj.count_all xs) (xs, r) := by
  have hwalk := h hll hdepth hroom [] le_rfl 0 []
  unfold sequence_do_dec
  refine (htlv.reads_len r).and_then ?_
  dsimp only
  rw [List.take_left]
  refine Reads.then_free hwalk ?_
  rw [if_neg (by rw [List.length_append]; omega), List.drop_left]
  exact Reads.ok _

/-- An object whose codec reads elements. -/
theorem Obj.readBack_constructed {val : List (Obj ω)} (h : Obj.AllReadBack other other_enc long val)
    {x : Obj ω} (tag : UInt8) (low : tag &&& 0x1F ≠ 0x1F) (hcount : x.count = 1 + Obj.count_all val)
    (hdepth : x.depth = Obj.depth_all val)
    (henc : ∀ {size b}, x.enc other_enc long size = .ok b →
      ∃ ll, Obj.enc_all other_enc long val = .ok ll ∧ tlv tag (size.getD long) ll = .ok b)
    (hdec : ∀ {room s r n}, Reads (sequence_do_dec (dec_at other room) tag.toNat s) n (val, r) →
      Reads (codec_do_dec other (dec_at other room) tag.toNat s) n (x, r)) :
    x.ReadBack other other_enc long := by
  intro size b hb
  obtain ⟨ll, hll, htlv⟩ := henc hb
  have htlv := isTlv_of_tlv low htlv
  refine ⟨tag, ll, htlv, fun hnest hroom r => ⟨1 + 2 * Obj.count_all val, ?_, ?_⟩⟩
  · omega
  · exact hdec (h.contents hll htlv (hdepth ▸ hnest) hroom r)

/-- A sequence is read back when its members are. -/
theorem Obj.readBack_SEQUENCE {val : List (Obj ω)} (h : Obj.AllReadBack other other_enc long val) :
    (Obj.SEQUENCE val : Obj ω).ReadBack other other_enc long := by
  refine readBack_constructed h 0x30 (by decide) (by rw [Obj.count]) (by rw [Obj.depth]) ?_ ?_
  · intro size b hb
    rw [Obj.enc] at hb
    cases hll : Obj.enc_all other_enc long val with
    | error e =>
      rw [hll] at hb
      cases hb
    | ok ll =>
      rw [hll] at hb
      exact ⟨ll, rfl, hb⟩
  · intro room s r n hread
    exact hread.then_free (Reads.ok _)

/-- A set is read back when its members are. -/
theorem Obj.readBack_SET {val : List (Obj ω)} (h : Obj.AllReadBack other other_enc long val) :
    (Obj.SET val : Obj ω).ReadBack other other_enc long := by
  refine readBack_constructed h 0x31 (by decide) (by rw [Obj.count]) (by rw [Obj.depth]) ?_ ?_
  · intro size b hb
    rw [Obj.enc] at hb
    cases hll : Obj.enc_all other_enc long val with
    | error e =>
      rw [hll] at hb
      cases hb
    | ok ll =>
      rw [hll] at hb
      exact ⟨ll, rfl, hb⟩
  · intro room s r n hread
    exact hread.then_free (Reads.ok _)

mutual

/-- **Every object is read back by its codec.** -/
theorem Obj.readBack : ∀ x : Obj ω, x.Valid → x.ReadBack other other_enc long
  | .INTEGER val, _ => readBack_INTEGER val
  | .BIT_STRING val, _ => readBack_BIT_STRING val
  | .STRING val, _ => readBack_STRING val
  | .OID val, hvalid => by
    rw [Obj.Valid] at hvalid
    obtain ⟨a, rfl⟩ := hvalid
    exact readBack_OID a
  | .SEQUENCE val, hvalid => readBack_SEQUENCE (Obj.allReadBack val (by rwa [Obj.Valid] at hvalid))
  | .SET val, hvalid => readBack_SET (Obj.allReadBack val (by rwa [Obj.Valid] at hvalid))
  | .other _, hvalid => by
    rw [Obj.Valid] at hvalid
    exact absurd hvalid not_false

theorem Obj.allReadBack : ∀ xs : List (Obj ω), Obj.AllValid xs → Obj.AllReadBack other other_enc long xs
  | [], _ => allReadBack_nil
  | x :: xs, hvalid => by
    rw [Obj.AllValid] at hvalid
    exact allReadBack_cons (Obj.readBack x hvalid.1) (Obj.allReadBack xs hvalid.2)

end

/-! ### A decode of its own -/

/-- A budget inside another one is that one. -/
theorem ber_budget_inside {α : Type} {m : Decoder α} {n : ℕ} {a : α} (h : Reads m n a)
    (left : ℕ) {nesting : ℕ} (hnesting : nesting < MAX_BER_DEPTH) :
    ber_budget m ⟨some left, nesting⟩ =
      if n ≤ left then .ok (a, ⟨some (left - n), nesting⟩) else .error .too_many_elements := by
  have hm := h left (nesting + 1)
  unfold ber_budget
  simp only [Option.isSome_some, ↓reduceIte]
  rw [if_neg (by omega), hm]
  by_cases hfits : n ≤ left
  · rw [if_pos hfits, if_pos hfits]
    rfl
  · rw [if_neg hfits, if_neg hfits]

/-- **What is encoded is decoded, as long as the budget allows for two reads of each element.** -/
theorem dec_of_enc {x : Obj ω} (hvalid : x.Valid) (hdepth : x.depth ≤ MAX_BER_DEPTH)
    {size : Option ℕ} {b : Bytes} (henc : x.enc other_enc long size = .ok b) (r : Bytes) :
    dec other (b ++ r) =
      if 2 * x.count ≤ MAX_BER_ELEMENTS then .ok (x, r) else .error .too_many_elements := by
  have hback : x.ReadBack other other_enc long := Obj.readBack x hvalid
  obtain ⟨tag, content, htlv, hread⟩ := hback henc
  obtain ⟨n, hn, hcodec⟩ := hread hdepth le_rfl r
  obtain ⟨low, sz, len, hlen, rfl⟩ := htlv
  rw [List.cons_append] at hcodec ⊢
  -- the object's identifier is read once out here, and again by its codec in a budget inside this one
  have hid := reads_id low (len ++ content ++ r) MAX_BER_ELEMENTS 1
  rw [if_pos (by decide)] at hid
  have hinside := ber_budget_inside hcodec (MAX_BER_ELEMENTS - 1)
    (show 1 < MAX_BER_DEPTH by decide)
  have hwhole : object_do_dec other (dec_at other MAX_BER_DEPTH) 0 (tag :: (len ++ content ++ r))
      ⟨some MAX_BER_ELEMENTS, 1⟩ =
        if 2 * x.count ≤ MAX_BER_ELEMENTS
          then .ok ((x, r), ⟨some (MAX_BER_ELEMENTS - 1 - n), 1⟩) else .error .too_many_elements := by
    have hpos : 1 ≤ MAX_BER_ELEMENTS := by decide
    unfold object_do_dec budgeted
    rw [if_neg (List.cons_ne_nil _ _), Decoder.and_then_of_ok hid, if_pos rfl, hinside]
    by_cases hfits : n ≤ MAX_BER_ELEMENTS - 1
    · rw [if_pos hfits, if_pos (by omega)]
    · rw [if_neg hfits, if_neg (by omega)]
  unfold dec dec_at budgeted
  rw [Nat.sub_self, if_pos rfl]
  unfold ber_budget
  simp only [Option.isSome_none, Bool.false_eq_true, ↓reduceIte, Nat.zero_add]
  rw [if_neg (by decide), hwhole]
  by_cases hfits : 2 * x.count ≤ MAX_BER_ELEMENTS
  · rw [if_pos hfits, if_pos hfits]
    rfl
  · rw [if_neg hfits, if_neg hfits]
    rfl

/-- **Objects come back from their encoding, whatever follows it, exactly where twice their
elements are within the budget.** -/
theorem ber_round_trip {x : Obj ω} (hvalid : x.Valid) (hdepth : x.depth ≤ MAX_BER_DEPTH)
    {size : Option ℕ} {b : Bytes} (henc : x.enc other_enc long size = .ok b) (r : Bytes) :
    dec other (b ++ r) = .ok (x, r) ↔ 2 * x.count ≤ MAX_BER_ELEMENTS := by
  rw [dec_of_enc hvalid hdepth henc r]
  split
  · next h => exact iff_of_true rfl h
  · next h => exact iff_of_false (fun hbad => by cases hbad) h

end Objects

/-- No codecs but the six. -/
def no_other (_ : ℕ) (_ : Bytes) : Decoder (Empty × Bytes) := .raise .python

def no_other_enc (o : Empty) : Except BerError Bytes := nomatch o

/-- 2.999.1, the first arc above 1 and the second above 39. -/
def high_arcs : Arcs where
  x := 2
  y := 999
  rest := [1]
  x_le := by decide
  y_lt h := absurd rfl h
  small := by decide

/-- A SEQUENCE of -129, seven bits, an OID, octets and a SET of nothing. -/
def sample_object : Obj Empty :=
  .SEQUENCE [.INTEGER (-129), .BIT_STRING [true, false, true, true, false, true, true],
    .OID high_arcs.text, .STRING [1, 2, 3], .SET []]

/-- Its encoding with a length of two octets. -/
def sample_octets : Bytes :=
  [0x30, 0x82, 0, 20, 2, 2, 0xff, 0x7f, 3, 2, 1, 0xb6, 6, 3, 0x88, 0x37, 1, 4, 3, 1, 2, 3, 0x31, 0]

/-- The octets of the sample object, evaluated once for the examples on it. -/
theorem sample_enc : sample_object.enc no_other_enc 0 (some 2) = .ok sample_octets := by
  -- The parts first: a number, an object identifier, the long form of the length, and the contents
  -- together.
  have hint : int_octets (-129) = [0x7f, 0xff] := by
    rw [int_octets, int_octets]
    decide +kernel
  have hoid : oid_octets high_arcs.text = .ok [0x88, 0x37, 1] := by
    have hfirst : BER_num_enc 1079 = [0x88, 0x37] := by
      rw [BER_num_enc, num_octets, num_octets, num_octets]
      decide +kernel
    have hlast : BER_num_enc 1 = [1] := by
      rw [BER_num_enc, num_octets, num_octets]
      decide +kernel
    unfold oid_octets Arcs.text
    rw [oid_numbers_dotted]
    show Except.ok (BER_num_enc 1079 ++ (BER_num_enc 1 ++ [])) = _
    rw [hfirst, hlast]
    rfl
  have hlen : BER_len_enc 20 2 = .ok [0x82, 0, 20] := by
    rw [BER_len_enc, len_octets, len_octets, len_octets]
    decide +kernel
  have hall : Obj.enc_all no_other_enc 0 [.INTEGER (-129), .BIT_STRING [true, false, true, true, false,
      true, true], .OID high_arcs.text, .STRING [1, 2, 3], .SET []] = .ok (sample_octets.drop 4) := by
    simp only [Obj.enc_all, Obj.enc, hint, hoid]
    rfl
  rw [sample_object, Obj.enc, hall]
  show tlv 0x30 2 _ = _
  rw [tlv, show (sample_octets.drop 4).length = 20 from by decide, hlen]
  rfl

/-- The sample comes back with octets behind it. -/
theorem ber_round_trip_sample :
    dec no_other (sample_octets ++ [5, 0]) = .ok (sample_object, [5, 0])
      ↔ 2 * sample_object.count ≤ MAX_BER_ELEMENTS := by
  refine ber_round_trip ?_ (by decide) sample_enc [5, 0]
  simp only [sample_object, Obj.Valid, Obj.AllValid, and_true, true_and]
  exact ⟨high_arcs, rfl⟩

/-! ## More than half the budget -/

/-- So many empty strings. -/
def empty_strings (n : ℕ) : List (Obj Empty) := List.replicate n (.STRING [])

theorem empty_strings_succ (n : ℕ) : empty_strings (n + 1) = .STRING [] :: empty_strings n := rfl

/-- A run of empty strings takes two octets each: the object with the most elements for its length.
-/
theorem empty_strings_spec (n : ℕ) :
    Obj.AllValid (empty_strings n) ∧ Obj.depth_all (empty_strings n) ≤ 1
      ∧ Obj.count_all (empty_strings n) = n
      ∧ ∃ bs, Obj.enc_all no_other_enc 0 (empty_strings n) = .ok bs ∧ bs.length = 2 * n := by
  induction n with
  | zero => exact ⟨trivial, Nat.zero_le 1, rfl, [], rfl, rfl⟩
  | succ n ih =>
    obtain ⟨hvalid, hdepth, hcount, bs, henc, hlen⟩ := ih
    rw [empty_strings_succ]
    refine ⟨⟨by rw [Obj.Valid]; trivial, hvalid⟩, ?_, ?_, [4, 0] ++ bs, ?_, ?_⟩
    · rw [Obj.depth_all, Obj.depth]
      exact Nat.max_le.2 ⟨le_rfl, hdepth⟩
    · rw [Obj.count_all, hcount, Obj.count, Nat.add_comm]
    · rw [Obj.enc_all, henc]
      rfl
    · rw [List.length_append, hlen]
      exact (Nat.mul_succ 2 n).symm ▸ Nat.add_comm _ _

/-- **A SEQUENCE of 131,072 empty strings is refused**: fewer elements than MAX_BER_ELEMENTS, but
each of their identifiers is read twice. -/
theorem half_budget_refused :
    ¬∀ (x : Obj Empty) (size : Option ℕ) (b r : Bytes), x.Valid → x.depth ≤ MAX_BER_DEPTH →
      x.count ≤ MAX_BER_ELEMENTS → x.enc no_other_enc 0 size = .ok b →
        dec no_other (b ++ r) = .ok (x, r) := by
  intro h
  obtain ⟨hvalid, hdepth, hcount, bs, henc, hlen⟩ := empty_strings_spec 131072
  generalize empty_strings 131072 = xs at hvalid hdepth hcount henc
  -- two octets for each string: a length of three octets
  have hshort : (BER_len_enc bs.length 0) = .ok [0x83, 4, 0, 0] := by
    rw [hlen, BER_len_enc, len_octets, len_octets, len_octets, len_octets]
    rfl
  have hwhole : (Obj.SEQUENCE xs).enc no_other_enc 0 none = .ok (0x30 :: ([0x83, 4, 0, 0] ++ bs)) := by
    rw [Obj.enc, henc]
    show tlv 0x30 0 bs = _
    rw [tlv, hshort]
    rfl
  have hsize : (Obj.SEQUENCE xs).count = 131073 := by
    rw [Obj.count, hcount]
  have hvalid : (Obj.SEQUENCE xs).Valid := by
    rw [Obj.Valid]
    exact hvalid
  have hnest : (Obj.SEQUENCE xs).depth ≤ MAX_BER_DEPTH := by
    rw [Obj.depth]
    exact hdepth.trans (by decide)
  have hback := h _ none _ [] hvalid hnest (by rw [hsize]; decide) hwhole
  rw [dec_of_enc hvalid hnest hwhole, if_neg (by rw [hsize]; decide)] at hback
  cases hback

end Wiry.Ber
