/-
The octets of an LDAP filter against the grammar of RFC 4511 §4.5.1.7.

`Encodes` is that grammar over definite-length elements, each alternative and component under its
context tag. Such elements are read in one way only, so what is built is in the grammar or not.
-/
import Wiry.Ber.Contents
import Wiry.Ldap.Filter

set_option autoImplicit false

namespace Wiry.Ldap

open Packet (Bytes)
open Ber (BerError)
open Asn1

/-! ## RFC 4511 -/

/-- Length octets of the definite form (X.690 §8.1.3.3 to §8.1.3.5). -/
inductive Definite (n : ℕ) : Bytes → Prop
  | short (h : n < 128) : Definite n [UInt8.ofNat n]
  | long (octets : Bytes) (hsome : octets ≠ []) (hfew : octets.length < 127)
      (hvalue : Ber.from_bytes octets = n) :
      Definite n (UInt8.ofNat (octets.length ||| 0x80) :: octets)

/-- One element: a tag of one octet, length and contents. -/
inductive Element (tag : UInt8) (content : Bytes) : Bytes → Prop
  | mk (len : Bytes) (h : Definite content.length len) :
      Element tag content (tag :: (len ++ content))

/-- A component that may be left out. -/
inductive Component (tag : UInt8) : Option Bytes → Bytes → Prop
  | absent : Component tag none []
  | present {val b : Bytes} (h : Element tag val b) : Component tag (some val) b

/-- AttributeValueAssertion. -/
inductive AssertionContents (t v : Bytes) : Bytes → Prop
  | mk {bt bv : Bytes} (ht : Element 0x04 t bt) (hv : Element 0x04 v bv) :
      AssertionContents t v (bt ++ bv)

inductive SubstringEncodes : Substring → Bytes → Prop
  | initial {val b : Bytes} (h : Element 0x80 val b) : SubstringEncodes (.initial val) b
  | any {val b : Bytes} (h : Element 0x81 val b) : SubstringEncodes (.any val) b
  | final {val b : Bytes} (h : Element 0x82 val b) : SubstringEncodes (.final val) b

inductive SubstringsEncode : List Substring → Bytes → Prop
  | nil : SubstringsEncode [] []
  | cons {x : Substring} {xs : List Substring} {b bs : Bytes} (hx : SubstringEncodes x b)
      (hxs : SubstringsEncode xs bs) : SubstringsEncode (x :: xs) (b ++ bs)

/-- dnAttributes, which is left out where it is its default. -/
inductive DnAttributes : Bool → Bytes → Prop
  | default : DnAttributes false []
  | written {val : Bool} {b : Bytes} (h : Element 0x84 [if val then 0xFF else 0] b) :
      DnAttributes val b

mutual

/-- Filter. -/
inductive Encodes : Filter → Bytes → Prop
  | And {vals : List Filter} {content b : Bytes} (hvals : AllEncode vals content)
      (h : Element 0xA0 content b) : Encodes (.And vals) b
  | Or {vals : List Filter} {content b : Bytes} (hvals : AllEncode vals content)
      (h : Element 0xA1 content b) : Encodes (.Or vals) b
  | Not {val : Filter} {content b : Bytes} (hval : Encodes val content)
      (h : Element 0xA2 content b) : Encodes (.Not val) b
  | EqualityMatch {t v content b : Bytes} (hc : AssertionContents t v content)
      (h : Element 0xA3 content b) : Encodes (.EqualityMatch t v) b
  | Substrings {type bt content bs b : Bytes} {filters : List Substring} (ht : Element 0x04 type bt)
      (hf : SubstringsEncode filters content) (hs : Element 0x30 content bs)
      (h : Element 0xA4 (bt ++ bs) b) : Encodes (.Substrings type filters) b
  | GreaterOrEqual {t v content b : Bytes} (hc : AssertionContents t v content)
      (h : Element 0xA5 content b) : Encodes (.GreaterOrEqual t v) b
  | LessOrEqual {t v content b : Bytes} (hc : AssertionContents t v content)
      (h : Element 0xA6 content b) : Encodes (.LessOrEqual t v) b
  | Present {present b : Bytes} (h : Element 0x87 present b) : Encodes (.Present present) b
  | ApproxMatch {t v content b : Bytes} (hc : AssertionContents t v content)
      (h : Element 0xA8 content b) : Encodes (.ApproxMatch t v) b
  | ExtensibleMatch {matchingRule type : Option Bytes} {matchValue b1 b2 b3 b4 b : Bytes}
      {dnAttributes : Bool} (h1 : Component 0x81 matchingRule b1) (h2 : Component 0x82 type b2)
      (h3 : Element 0x83 matchValue b3) (h4 : DnAttributes dnAttributes b4)
      (h : Element 0xA9 (b1 ++ (b2 ++ (b3 ++ b4))) b) :
      Encodes (.ExtensibleMatch matchingRule type matchValue dnAttributes) b

inductive AllEncode : List Filter → Bytes → Prop
  | nil : AllEncode [] []
  | cons {f : Filter} {fs : List Filter} {b bs : Bytes} (hf : Encodes f b) (hfs : AllEncode fs bs) :
      AllEncode (f :: fs) (b ++ bs)

end

/-! ## Elements read in one way -/

/-- A definite length is read for what it says, whatever follows. -/
theorem Definite.read {n : ℕ} {len : Bytes} (h : Definite n len) (r : Bytes) :
    Ber.BER_len_dec (len ++ r) = .ok (n, r) := by
  cases h with
  | short h =>
    obtain ⟨hplain, -, hvalue⟩ := Ber.plain_octet h
    unfold Ber.BER_len_dec
    dsimp only [List.cons_append, List.nil_append]
    rw [if_pos hplain, hvalue]
  | long octets hsome hfew hvalue =>
    obtain ⟨hmark, hcount⟩ := Ber.marked_octet (n := octets.length) (by omega)
    have hroom : ¬ (UInt8.ofNat (octets.length ||| 0x80) :: (octets ++ r)).length
        ≤ octets.length := by
      rw [List.length_cons, List.length_append]
      omega
    unfold Ber.BER_len_dec
    dsimp only [List.cons_append]
    rw [if_neg hmark, hcount, if_neg hroom, List.take_left, List.drop_left, hvalue]

/-- An element at the front of a string is the only one there. -/
theorem Element.unique {tag tag' : UInt8} {content content' b b' r r' : Bytes}
    (h : Element tag content b) (h' : Element tag' content' b') (heq : b ++ r = b' ++ r') :
    tag = tag' ∧ content = content' ∧ b = b' ∧ r = r' := by
  obtain ⟨len, hlen⟩ := h
  obtain ⟨len', hlen'⟩ := h'
  rw [List.cons_append, List.cons_append, List.cons.injEq, List.append_assoc,
    List.append_assoc] at heq
  obtain ⟨rfl, heq⟩ := heq
  have hread := hlen.read (content ++ r)
  rw [heq, hlen'.read (content' ++ r')] at hread
  have hpair := Except.ok.inj hread
  obtain ⟨rfl, rfl⟩ := List.append_inj (congrArg Prod.snd hpair) (congrArg Prod.fst hpair)
  rw [List.append_left_inj] at heq
  rw [heq]
  exact ⟨rfl, rfl, rfl, rfl⟩

theorem Element.unique_alone {tag tag' : UInt8} {content content' b : Bytes}
    (h : Element tag content b) (h' : Element tag' content' b) :
    tag = tag' ∧ content = content' := by
  obtain ⟨htag, hcontent, -⟩ := h.unique h' (show b ++ [] = b ++ [] from rfl)
  exact ⟨htag, hcontent⟩

/-- Elements one behind another, by their tags. -/
inductive Tagged : List UInt8 → Bytes → Prop
  | nil : Tagged [] []
  | cons {tag : UInt8} {tags : List UInt8} {content b bs : Bytes} (h : Element tag content b)
      (hs : Tagged tags bs) : Tagged (tag :: tags) (b ++ bs)

/-- A string is tagged in one way only. -/
theorem Tagged.unique {tags tags' : List UInt8} {s : Bytes} (h : Tagged tags s)
    (h' : Tagged tags' s) : tags = tags' := by
  induction h generalizing tags' with
  | nil =>
    generalize hs : ([] : Bytes) = s at h'
    cases h' with
    | nil => rfl
    | cons he _ =>
      cases he
      cases hs
  | @cons tag tags content b bs he _ ih =>
    generalize hs : b ++ bs = s at h'
    cases h' with
    | nil =>
      cases he
      cases hs
    | @cons tag' tags' content' b' bs' he' htags' =>
      obtain ⟨rfl, -, rfl, rfl⟩ := he.unique he' hs
      rw [ih htags']

/-! ## What is built -/

/-- The octets of a length fit the size that was asked for. -/
theorem length_len_octets (ll size k : ℕ) (hll : ll < 256 ^ k) (hsize : size ≤ k) :
    (Ber.len_octets ll size).length ≤ k := by
  induction k generalizing ll size with
  | zero =>
    have hzero : ll = 0 ∧ size = 0 := by
      rw [Nat.pow_zero] at hll
      omega
    unfold Ber.len_octets
    rw [if_pos hzero]
    exact le_rfl
  | succ k ih =>
    unfold Ber.len_octets
    split
    · exact Nat.zero_le _
    · rw [List.length_append, List.length_singleton]
      refine Nat.succ_le_succ (ih (ll / 256) (size - 1) ?_ (by omega))
      rw [Nat.pow_succ, Nat.mul_comm] at hll
      exact Nat.div_lt_of_lt_mul hll

theorem len_octets_ne {ll size : ℕ} (h : ¬ (ll = 0 ∧ size = 0)) : Ber.len_octets ll size ≠ [] := by
  unfold Ber.len_octets
  rw [if_neg h]
  exact List.append_ne_nil_of_right_ne_nil _ (List.cons_ne_nil _ _)

/-- What is built is a definite-length element; no octets in memory are so many that their length
takes 127. -/
theorem element_of_tlv {tag : UInt8} {size : ℕ} {content b : Bytes}
    (h : Ber.tlv tag size content = .ok b) (hsize : size ≤ 126) (hfit : b.length < 2 ^ 63) :
    Element tag content b := by
  -- The length is written short or long, and either is the grammar's for the content.
  unfold Ber.tlv at h
  cases hlen : Ber.BER_len_enc content.length size with
  | error e =>
    rw [hlen] at h
    cases h
  | ok len =>
    rw [hlen] at h
    cases h
    refine ⟨len, ?_⟩
    unfold Ber.BER_len_enc at hlen
    split at hlen
    · next hshort =>
      cases hlen
      exact .short (by omega)
    · next hlong =>
      dsimp only at hlen
      split at hlen
      · cases hlen
      · cases hlen
        have hcontent : content.length < 256 ^ 126 := by
          have hpow : (2 : ℕ) ^ 63 ≤ 256 ^ 126 := by decide
          rw [List.length_cons, List.length_append] at hfit
          omega
        have hfew := length_len_octets content.length size 126 hcontent hsize
        refine .long _ (len_octets_ne fun hzero => hlong ?_) (by omega)
          (Ber.from_bytes_len_octets _ _)
        omega

theorem Element.tagging {tag implicit_tag : UInt8} {content b : Bytes} (h : Element tag content b) :
    Element implicit_tag content (tagging_enc implicit_tag b) := by
  obtain ⟨len, hlen⟩ := h
  exact ⟨len, hlen⟩

/-- An encoding that is there, under another tag. -/
theorem alternative_ok {tag : UInt8} {s : Except BerError Bytes} {b : Bytes}
    (h : alternative tag s = .ok b) : ∃ b0, s = .ok b0 ∧ b = tagging_enc tag b0 := by
  unfold alternative at h
  cases s with
  | error e => cases h
  | ok b0 =>
    cases h
    exact ⟨b0, rfl, rfl⟩

theorem length_tagging_enc (tag : UInt8) (b : Bytes) : (tagging_enc tag b).length = b.length := by
  unfold tagging_enc
  split
  · rfl
  · next hne =>
    rw [List.length_cons, List.length_drop]
    have hpos := List.length_pos_iff.2 hne
    omega

/-- A sequence of two is built from the octets of both. -/
theorem sequence_build_two {long : ℕ} {x y : Except BerError Bytes} {b : Bytes}
    (h : sequence_build long [x, y] = .ok b) :
    ∃ a c, x = .ok a ∧ y = .ok c ∧ enc_sequence long (a ++ c) = .ok b := by
  unfold sequence_build joined at h
  cases x with
  | error e => cases h
  | ok a =>
    cases y with
    | error e => cases h
    | ok c =>
      have hjoin : joined id [(Except.ok c : Except BerError Bytes)] = .ok c := by
        unfold joined
        exact congrArg Except.ok (List.append_nil c)
      refine ⟨a, c, rfl, rfl, ?_⟩
      rw [hjoin] at h
      exact h

/-! ## Octets of the grammar -/

section Encoding

variable {long : ℕ}

theorem Element.length_le {tag : UInt8} {content b : Bytes} (h : Element tag content b) :
    content.length ≤ b.length := by
  obtain ⟨len, -⟩ := h
  rw [List.length_cons, List.length_append]
  omega

/-- The element of an alternative. -/
theorem element_of_alternative {tag t : UInt8} {size : ℕ} {content b : Bytes}
    (h : alternative tag (Ber.tlv t size content) = .ok b) (hsize : size ≤ 126)
    (hfit : b.length < 2 ^ 63) : Element tag content b := by
  obtain ⟨b0, hb0, rfl⟩ := alternative_ok h
  rw [length_tagging_enc] at hfit
  exact (element_of_tlv hb0 hsize hfit).tagging

/-- An encoding of a filter is one element. -/
theorem encodes_element {f : Filter} {b : Bytes} (h : Encodes f b) :
    ∃ tag content, Element tag content b := by
  cases h with
  | And _ h => exact ⟨_, _, h⟩
  | Or _ h => exact ⟨_, _, h⟩
  | Not _ h => exact ⟨_, _, h⟩
  | EqualityMatch _ h => exact ⟨_, _, h⟩
  | Substrings _ _ _ h => exact ⟨_, _, h⟩
  | GreaterOrEqual _ h => exact ⟨_, _, h⟩
  | LessOrEqual _ h => exact ⟨_, _, h⟩
  | Present h => exact ⟨_, _, h⟩
  | ApproxMatch _ h => exact ⟨_, _, h⟩
  | ExtensibleMatch _ _ _ _ h => exact ⟨_, _, h⟩

theorem encodes_And_iff {vals : List Filter} {content b : Bytes} (h : Element 0xA0 content b) :
    Encodes (.And vals) b ↔ AllEncode vals content := by
  refine ⟨fun henc => ?_, fun hvals => .And hvals h⟩
  cases henc with
  | And hvals h' =>
    obtain ⟨-, rfl⟩ := h.unique_alone h'
    exact hvals

/-- So are a disjunction's. -/
theorem encodes_Or_iff {vals : List Filter} {content b : Bytes} (h : Element 0xA1 content b) :
    Encodes (.Or vals) b ↔ AllEncode vals content := by
  refine ⟨fun henc => ?_, fun hvals => .Or hvals h⟩
  cases henc with
  | Or hvals h' =>
    obtain ⟨-, rfl⟩ := h.unique_alone h'
    exact hvals

/-- A negation's is its member's. -/
theorem encodes_Not_iff {val : Filter} {content b : Bytes} (h : Element 0xA2 content b) :
    Encodes (.Not val) b ↔ Encodes val content := by
  refine ⟨fun henc => ?_, fun hval => .Not hval h⟩
  cases henc with
  | Not hval h' =>
    obtain ⟨-, rfl⟩ := h.unique_alone h'
    exact hval

theorem allEncode_cons_iff {f : Filter} {fs : List Filter} {tag : UInt8} {content b bs : Bytes}
    (h : Element tag content b) :
    AllEncode (f :: fs) (b ++ bs) ↔ Encodes f b ∧ AllEncode fs bs := by
  refine ⟨fun henc => ?_, fun hboth => .cons hboth.1 hboth.2⟩
  generalize hs : b ++ bs = s at henc
  cases henc with
  | cons hf hfs =>
    obtain ⟨tag', content', h'⟩ := encodes_element hf
    obtain ⟨-, -, rfl, rfl⟩ := h.unique h' hs
    exact ⟨hf, hfs⟩

theorem assertion_encodes {tag : UInt8} {t v b : Bytes} (hlong : long ≤ 126)
    (hfit : b.length < 2 ^ 63) (h : alternative tag (assertion_build long t v) = .ok b) :
    ∃ content, AssertionContents t v content ∧ Element tag content b := by
  obtain ⟨b0, hb0, rfl⟩ := alternative_ok h
  obtain ⟨bt, bv, hbt, hbv, hseq⟩ := sequence_build_two hb0
  rw [length_tagging_enc] at hfit
  have helement := element_of_tlv hseq hlong hfit
  have hlength := helement.length_le
  rw [List.length_append] at hlength
  exact ⟨_, .mk (element_of_tlv hbt (Nat.zero_le _) (by omega))
    (element_of_tlv hbv (Nat.zero_le _) (by omega)), helement.tagging⟩

theorem substring_encodes {x : Substring} {b : Bytes} (h : x.build = .ok b)
    (hfit : b.length < 2 ^ 63) : SubstringEncodes x b := by
  cases x with
  | initial val => exact .initial (element_of_alternative h (Nat.zero_le _) hfit)
  | any val => exact .any (element_of_alternative h (Nat.zero_le _) hfit)
  | final val => exact .final (element_of_alternative h (Nat.zero_le _) hfit)

/-- What it writes for the parts of a substring filter is the grammar's list of parts. -/
theorem substrings_encode : ∀ {xs : List Substring} {s : Bytes}, joined Substring.build xs = .ok s →
    s.length < 2 ^ 63 → SubstringsEncode xs s
  | [], s, h, _ => by
    cases h
    exact .nil
  | x :: xs, s, h, hfit => by
    unfold joined at h
    -- the part in front is encoded, and those behind it
    cases hx : x.build with
    | error e =>
      rw [hx] at h
      cases h
    | ok b =>
      rw [hx] at h
      cases hxs : joined Substring.build xs with
      | error e =>
        rw [hxs] at h
        cases h
      | ok bs =>
        rw [hxs] at h
        cases h
        rw [List.length_append] at hfit
        exact .cons (substring_encodes hx (by omega)) (substrings_encode hxs (by omega))

/-- So is the whole substring filter. -/
theorem substring_filter_encodes {type b : Bytes} {filters : List Substring} (hlong : long ≤ 126)
    (hfit : b.length < 2 ^ 63) (h : (Filter.Substrings type filters).build long = .ok b) :
    Encodes (.Substrings type filters) b := by
  unfold Filter.build at h
  obtain ⟨b0, hb0, rfl⟩ := alternative_ok h
  obtain ⟨bt, bs, hbt, hbs, hseq⟩ := sequence_build_two hb0
  rw [length_tagging_enc] at hfit
  have helement := element_of_tlv hseq hlong hfit
  have hlength := helement.length_le
  rw [List.length_append] at hlength
  cases hfilters : joined Substring.build filters with
  | error e =>
    rw [hfilters] at hbs
    cases hbs
  | ok content =>
    rw [hfilters] at hbs
    have hs := element_of_tlv hbs hlong (by omega)
    have hcontent := hs.length_le
    exact .Substrings (element_of_tlv hbt (Nat.zero_le _) (by omega))
      (substrings_encode hfilters (by omega)) hs helement.tagging

/-- Members that are absent or elements, none of them under the tag 0x83. -/
theorem tagged_joined : ∀ {members : List (Except BerError Bytes)} {content : Bytes},
    joined id members = .ok content → content.length < 2 ^ 63 →
    (∀ m ∈ members, ∀ b, m = .ok b → b.length < 2 ^ 63 →
      b = [] ∨ ∃ tag c, tag ≠ 0x83 ∧ Element tag c b) →
    ∃ tags, Tagged tags content ∧ (0x83 : UInt8) ∉ tags
  | [], content, h, _, _ => by
    cases h
    exact ⟨[], .nil, List.not_mem_nil⟩
  | m :: members, content, h, hfit, hmembers => by
    unfold joined at h
    cases hm : id m with
    | error e =>
      rw [hm] at h
      cases h
    | ok b =>
      rw [hm] at h
      cases hrest : joined id members with
      | error e =>
        rw [hrest] at h
        cases h
      | ok bs =>
        rw [hrest] at h
        cases h
        rw [List.length_append] at hfit
        obtain ⟨tags, htagged, hnot⟩ := tagged_joined hrest (by omega)
          (fun m' hm' => hmembers m' (List.mem_cons_of_mem _ hm'))
        rcases hmembers m List.mem_cons_self b hm (by omega) with rfl | ⟨tag, c, htag, helement⟩
        · exact ⟨tags, htagged, hnot⟩
        · refine ⟨tag :: tags, .cons helement htagged, fun hmem => ?_⟩
          rcases List.mem_cons.1 hmem with heq | hmem
          · exact htag heq.symm
          · exact hnot hmem

theorem optional_element {tag : UInt8} {val : Option Bytes} {b : Bytes}
    (h : optional_build tag val = .ok b) (hfit : b.length < 2 ^ 63) :
    b = [] ∨ ∃ c, Element tag c b := by
  cases val with
  | none =>
    cases h
    exact Or.inl rfl
  | some val => exact Or.inr ⟨val, element_of_alternative h (Nat.zero_le _) hfit⟩

/-- An extensible match as it is built has its value under the tag of the type. -/
theorem extensible_tagged {matchingRule type : Option Bytes} {matchValue b : Bytes}
    {dnAttributes : Bool} (hlong : long ≤ 126) (hfit : b.length < 2 ^ 63)
    (h : (Filter.ExtensibleMatch matchingRule type matchValue dnAttributes).build long = .ok b) :
    ∃ tags content, Tagged tags content ∧ Element 0xA9 content b ∧ (0x83 : UInt8) ∉ tags := by
  unfold Filter.build at h
  obtain ⟨b0, hb0, rfl⟩ := alternative_ok h
  rw [length_tagging_enc] at hfit
  unfold sequence_build at hb0
  cases hjoined : joined id [optional_build 0x81 matchingRule, optional_build 0x81 type,
      optional_build 0x82 (some matchValue), (enc_boolean dnAttributes).map (tagging_enc 0x84)] with
  | error e =>
    rw [hjoined] at hb0
    cases hb0
  | ok content =>
    rw [hjoined] at hb0
    have helement := element_of_tlv hb0 hlong hfit
    have hlength := helement.length_le
    -- The first three members carry tags other than 0x83, or are absent.
    have hoptional {tag : UInt8} {val : Option Bytes} (htag : tag ≠ 0x83) (b : Bytes)
        (hb : optional_build tag val = .ok b) (hfit : b.length < 2 ^ 63) :
        b = [] ∨ ∃ tag c, tag ≠ 0x83 ∧ Element tag c b := by
      rcases optional_element hb hfit with hnil | ⟨c, hc⟩
      · exact Or.inl hnil
      · exact Or.inr ⟨tag, c, htag, hc⟩
    -- The fourth is a universal octet string, so the tag of the match value never occurs.
    obtain ⟨tags, htagged, hnot⟩ := tagged_joined hjoined (by omega) (by
      intro m hm
      rcases List.mem_cons.1 hm with rfl | hm
      · exact hoptional (by decide)
      rcases List.mem_cons.1 hm with rfl | hm
      · exact hoptional (by decide)
      rcases List.mem_cons.1 hm with rfl | hm
      · exact hoptional (by decide)
      rw [List.mem_singleton.1 hm]
      intro b hb hfit
      exact Or.inr ⟨0x84, _, by decide, element_of_alternative hb (Nat.zero_le _) hfit⟩)
    exact ⟨tags, content, htagged, helement.tagging, hnot⟩

/-- The extensible match is never what the grammar asks for: its fields are tagged as universal
types. -/
theorem extensible_not_encoded {matchingRule type : Option Bytes} {matchValue b : Bytes}
    {dnAttributes : Bool} (hlong : long ≤ 126) (hfit : b.length < 2 ^ 63)
    (h : (Filter.ExtensibleMatch matchingRule type matchValue dnAttributes).build long = .ok b) :
    ¬ Encodes (.ExtensibleMatch matchingRule type matchValue dnAttributes) b := by
  intro henc
  obtain ⟨tags, content, htagged, helement, hnot⟩ := extensible_tagged hlong hfit h
  cases henc with
  | ExtensibleMatch h1 h2 h3 h4 h' =>
    obtain ⟨-, rfl⟩ := helement.unique_alone h'
    rename_i b1 b2 b3 b4
    -- The elements present have their tags; the default of `dnAttributes` is not written.
    have hdn : ∃ tags, Tagged tags b4 := by
      cases h4 with
      | default => exact ⟨_, .nil⟩
      | written h => exact ⟨_, List.append_nil b4 ▸ Tagged.cons h .nil⟩
    obtain ⟨tags4, hdn⟩ := hdn
    have hvalue := Tagged.cons h3 hdn
    -- The grammar asks for the value's tag among them, which the code's encoding lacks.
    have htype : ∃ tags, (0x83 : UInt8) ∈ tags ∧ Tagged tags (b2 ++ (b3 ++ b4)) := by
      cases h2 with
      | absent => exact ⟨_, List.mem_cons_self, hvalue⟩
      | present h => exact ⟨_, List.mem_cons_of_mem _ List.mem_cons_self, .cons h hvalue⟩
    obtain ⟨tags2, hmem, htype⟩ := htype
    have hrule : ∃ tags, (0x83 : UInt8) ∈ tags ∧ Tagged tags (b1 ++ (b2 ++ (b3 ++ b4))) := by
      cases h1 with
      | absent => exact ⟨_, hmem, htype⟩
      | present h => exact ⟨_, List.mem_cons_of_mem _ hmem, .cons h htype⟩
    obtain ⟨tags1, hmem, hrule⟩ := hrule
    rw [htagged.unique hrule] at hnot
    exact hnot hmem

mutual

/-- A filter's octets are those of the grammar exactly when no extensible match is among it. -/
theorem filter_encodes_iff (hlong : long ≤ 126) : ∀ (f : Filter) {b : Bytes}, f.whole = true →
    f.build long = .ok b → b.length < 2 ^ 63 →
      (∃ tag content, Element tag content b) ∧ (Encodes f b ↔ f.plain = true)
  | .And vals, b, hwhole, h, hfit => by
    unfold Filter.build at h
    cases hvals : build_all long vals with
    | error e =>
      rw [hvals] at h
      cases h
    | ok content =>
      rw [hvals] at h
      unfold Filter.whole at hwhole
      unfold Filter.plain
      have helement := element_of_alternative h hlong hfit
      have hlength := helement.length_le
      exact ⟨⟨_, _, helement⟩,
        (encodes_And_iff helement).trans (all_encode_iff hlong vals hwhole hvals (by omega))⟩
  | .Or vals, b, hwhole, h, hfit => by
    unfold Filter.build at h
    cases hvals : build_all long vals with
    | error e =>
      rw [hvals] at h
      cases h
    | ok content =>
      rw [hvals] at h
      unfold Filter.whole at hwhole
      unfold Filter.plain
      have helement := element_of_alternative h hlong hfit
      have hlength := helement.length_le
      exact ⟨⟨_, _, helement⟩,
        (encodes_Or_iff helement).trans (all_encode_iff hlong vals hwhole hvals (by omega))⟩
  | .Not val, b, hwhole, h, hfit => by
    unfold Filter.build at h
    cases hval : val.build long with
    | error e =>
      rw [hval] at h
      cases h
    | ok content =>
      rw [hval] at h
      unfold Filter.whole at hwhole
      unfold Filter.plain
      have helement := element_of_alternative h hlong hfit
      have hlength := helement.length_le
      exact ⟨⟨_, _, helement⟩, (encodes_Not_iff helement).trans
        (filter_encodes_iff hlong val hwhole hval (by omega)).2⟩
  | .EqualityMatch t v, b, _, h, hfit => by
    unfold Filter.build at h
    obtain ⟨content, hc, helement⟩ := assertion_encodes hlong hfit h
    exact ⟨⟨_, _, helement⟩, iff_of_true (.EqualityMatch hc helement) rfl⟩
  | .Substrings type filters, b, _, h, hfit =>
    have henc := substring_filter_encodes hlong hfit h
    ⟨encodes_element henc, iff_of_true henc rfl⟩
  | .GreaterOrEqual t v, b, _, h, hfit => by
    unfold Filter.build at h
    obtain ⟨content, hc, helement⟩ := assertion_encodes hlong hfit h
    exact ⟨⟨_, _, helement⟩, iff_of_true (.GreaterOrEqual hc helement) rfl⟩
  | .LessOrEqual t v, b, _, h, hfit => by
    unfold Filter.build at h
    obtain ⟨content, hc, helement⟩ := assertion_encodes hlong hfit h
    exact ⟨⟨_, _, helement⟩, iff_of_true (.LessOrEqual hc helement) rfl⟩
  | .Present present, b, _, h, hfit => by
    unfold Filter.build at h
    have helement := element_of_alternative h (Nat.zero_le _) hfit
    exact ⟨⟨_, _, helement⟩, iff_of_true (.Present helement) rfl⟩
  | .ApproxMatch t v, b, _, h, hfit => by
    unfold Filter.build at h
    obtain ⟨content, hc, helement⟩ := assertion_encodes hlong hfit h
    exact ⟨⟨_, _, helement⟩, iff_of_true (.ApproxMatch hc helement) rfl⟩
  | .ExtensibleMatch _ _ _ _, b, _, h, hfit => by
    obtain ⟨-, content, -, helement, -⟩ := extensible_tagged hlong hfit h
    exact ⟨⟨_, _, helement⟩, iff_of_false (extensible_not_encoded hlong hfit h) Bool.false_ne_true⟩
  | .hollow _, _, hwhole, _, _ => by
    unfold Filter.whole at hwhole
    cases hwhole

/-- Filters in a row are encoded as the grammar asks exactly when each of them is plain. -/
theorem all_encode_iff (hlong : long ≤ 126) : ∀ (fs : List Filter) {s : Bytes},
    all_whole fs = true → build_all long fs = .ok s → s.length < 2 ^ 63 →
      (AllEncode fs s ↔ all_plain fs = true)
  | [], s, _, h, _ => by
    cases h
    exact iff_of_true .nil rfl
  | f :: fs, s, hwhole, h, hfit => by
    unfold build_all at h
    cases hf : f.build long with
    | error e =>
      rw [hf] at h
      cases h
    | ok b =>
      rw [hf] at h
      cases hfs : build_all long fs with
      | error e =>
        rw [hfs] at h
        cases h
      | ok bs =>
        rw [hfs] at h
        cases h
        unfold all_whole at hwhole
        have hwhole := Bool.and_eq_true_iff.1 hwhole
        rw [List.length_append] at hfit
        -- the first alternative stands in front of the others, each an element of its own
        obtain ⟨⟨tag, content, helement⟩, hfirst⟩ :=
          filter_encodes_iff hlong f hwhole.1 hf (by omega)
        unfold all_plain
        rw [Bool.and_eq_true, allEncode_cons_iff helement, hfirst,
          all_encode_iff hlong fs hwhole.2 hfs (by omega)]

end

end Encoding

end Wiry.Ldap
