/-
The options of a DHCP layer: `options_at` of `crates/wiry-core/src/packet.rs`, with the regions
`layers/bootp.rs` adds to a layer's own and the joining of options that were split over them.
-/
import Wiry.Options.Table
import Wiry.Packet.Dissect

set_option autoImplicit false

namespace Wiry.Options

open Packet (Bytes LayerSpan ProtoId slice_checked)

def PAD : UInt8 := 0
def END : UInt8 := 255
def OVERLOAD : UInt8 := 52

/-- `overload::FILE` and `overload::SNAME`: `file` holds options, `sname` does, or both do. -/
def FILE : UInt8 := 1
def SNAME : UInt8 := 2

def SNAME_AT : ℕ := 44
def SNAME_LEN : ℕ := 64
def FILE_AT : ℕ := 108
def FILE_LEN : ℕ := 128

/-- The value `overload_regions` goes by: the first octet of the first option 52 that has one. -/
def overload_value (tlvs : List (UInt8 × Bytes)) : Option UInt8 :=
  tlvs.findSome? fun x => if x.1 = OVERLOAD then x.2.head? else none

/-- `overload_regions`: `file` before `sname`. -/
def overload_regions (tlvs : List (UInt8 × Bytes)) : List (ℕ × ℕ) :=
  match overload_value tlvs with
  | none => []
  | some v =>
    (if v &&& FILE ≠ 0 then [(FILE_AT, FILE_AT + FILE_LEN)] else []) ++
      if v &&& SNAME ≠ 0 then [(SNAME_AT, SNAME_AT + SNAME_LEN)] else []

/-- How often each code appears, up to what an octet counts. -/
def counts (tlvs : List (UInt8 × Bytes)) : UInt8 → ℕ :=
  tlvs.foldl (fun n x => Function.update n x.1 (min 255 (n x.1 + 1))) fun _ => 0

/-- All the payloads of a code. -/
def payloads (tlvs : List (UInt8 × Bytes)) (code : UInt8) : Bytes :=
  (tlvs.filter fun x => x.1 == code).flatMap Prod.snd

/-- What `options_at` reads of a layer's description: `group_of` as the walk of a repeating group,
`parse_options` and `opt_table`. -/
structure OptionsDesc (Sub : Type) where
  group : Option (Bytes → List Item)
  parse_options : Option (Bytes → List Item)
  opt_table : Option (OptTable Sub)

/-- `ProtoId::Dhcp`. -/
def Dhcp : ProtoId := .other 13

section Joining

variable {Sub : Type} [Level Sub] (t : OptTable Sub)

/-- The loop of `decode_joined`: `joined` are the codes whose payloads are out already. -/
def join_from (tlvs : List (UInt8 × Bytes)) :
    List (UInt8 × Bytes) → (UInt8 → Bool) → List Item
  | [], _ => []
  | (code, p) :: rest, joined =>
    let split := code ≠ PAD ∧ code ≠ END ∧ counts tlvs code > 1
    if ¬ split then t.decode code p :: join_from tlvs rest joined
    else if joined code then join_from tlvs rest joined
    else t.decode code (payloads tlvs code) ::
      join_from tlvs rest (Function.update joined code true)

/-- `decode_joined`. -/
def decode_joined (tlvs : List (UInt8 × Bytes)) : List Item := join_from t tlvs tlvs fun _ => false

/-- `options_at`. -/
def options_at (descs : ProtoId → OptionsDesc Sub) (buf : Bytes) (spans : List LayerSpan)
    (layer : ℕ) : Option (List Item) :=
  match spans[layer]? with
  | none => none
  | some s =>
    match (descs s.proto).group with
    | some walk => some (walk (s.header buf))
    | none =>
      match (descs s.proto).parse_options, (descs s.proto).opt_table.filter fun _ => s.proto = Dhcp with
      | none, _ => none
      | some parse, none => some (parse (s.header buf))
      | some _, some t =>
        let tlvs := t.walk_raw (s.header buf)
        let more := match (spans.take layer).reverse.find? fun x => x.proto = .Bootp with
          | none => []
          | some b => (overload_regions tlvs).flatMap fun r =>
            match slice_checked (b.header buf) r.1 r.2 with
            | none => []
            | some region => t.walk_raw region
        some (decode_joined t (tlvs ++ more))

/-! ## What the joining makes of a list of options -/

/-- One item for each code where it first stands, all its payloads together; Pad and End stand where
they are. -/
def joined (tlvs : List (UInt8 × Bytes)) : List Item :=
  tlvs.zipIdx.filterMap fun x =>
    if x.1.1 = PAD ∨ x.1.1 = END then some (t.decode x.1.1 x.1.2)
    else if x.1.1 ∈ (tlvs.take x.2).map Prod.fst then none
    else some (t.decode x.1.1 (payloads tlvs x.1.1))

/-- The occurrences of a code are counted, up to 255. -/
theorem counts_eq (tlvs : List (UInt8 × Bytes)) (code : UInt8) :
    counts tlvs code = min 255 (tlvs.filter fun x => x.1 == code).length := by
  -- from any counts that fit an octet on, each appearance adds one until the octet is full
  have hfrom : ∀ n : UInt8 → ℕ, n code ≤ 255 →
      tlvs.foldl (fun n x => Function.update n x.1 (min 255 (n x.1 + 1))) n code =
        min 255 (n code + (tlvs.filter fun x => x.1 == code).length) := by
    induction tlvs with
    | nil =>
      intro n hn
      simpa using hn
    | cons x tlvs ih =>
      intro n hn
      rw [List.foldl_cons, ih]
      · by_cases hx : x.1 = code
        · subst hx
          simp
          omega
        · have hne : (x.1 == code) = false := by simpa using hx
          rw [Function.update_of_ne (Ne.symm hx), List.filter_cons, hne]
          simp
      · by_cases hx : x.1 = code
        · subst hx
          simp
        · rw [Function.update_of_ne (Ne.symm hx)]
          exact hn
  unfold counts
  rw [hfrom _ (Nat.zero_le _), Nat.zero_add]

/-- A code that appears once has the one payload. -/
theorem payloads_single {pre post : List (UInt8 × Bytes)} {code : UInt8} {p : Bytes}
    (h : counts (pre ++ (code, p) :: post) code ≤ 1) :
    payloads (pre ++ (code, p) :: post) code = p ∧ code ∉ pre.map Prod.fst := by
  rw [counts_eq, List.filter_append, List.filter_cons, if_pos (by simp)] at h
  simp only [List.length_append, List.length_cons] at h
  have hpre : (pre.filter fun x => x.1 == code) = [] := List.eq_nil_of_length_eq_zero (by omega)
  have hpost : (post.filter fun x => x.1 == code) = [] := List.eq_nil_of_length_eq_zero (by omega)
  constructor
  · unfold payloads
    rw [List.filter_append, List.filter_cons, if_pos (by simp), hpre, hpost]
    simp
  · intro hmem
    obtain ⟨x, hx, rfl⟩ := List.mem_map.1 hmem
    have := List.filter_eq_nil_iff.1 hpre x hx
    simp at this

/-- The joining walk from any point: padding and the end stand for themselves, a code seen before is
left out, and a new one gets all its payloads. The codes done are those of the options in front. -/
theorem join_from_eq (pre suf : List (UInt8 × Bytes)) (done : UInt8 → Bool)
    (hdone : ∀ code, code ≠ PAD → code ≠ END → counts (pre ++ suf) code > 1 →
      (done code = true ↔ code ∈ pre.map Prod.fst)) :
    join_from t (pre ++ suf) suf done = (suf.zipIdx pre.length).filterMap fun x =>
      if x.1.1 = PAD ∨ x.1.1 = END then some (t.decode x.1.1 x.1.2)
      else if x.1.1 ∈ ((pre ++ suf).take x.2).map Prod.fst then none
      else some (t.decode x.1.1 (payloads (pre ++ suf) x.1.1)) := by
  induction suf generalizing pre done with
  | nil => rfl
  | cons x suf ih =>
    obtain ⟨code, p⟩ := x
    have hassoc : pre ++ (code, p) :: suf = (pre ++ [(code, p)]) ++ suf := by simp
    have hlen : (pre ++ [(code, p)]).length = pre.length + 1 := by simp
    -- the rest of the loop, by what the octet at hand leaves joined
    have hrest : ∀ done', (∀ c, c ≠ PAD → c ≠ END → counts (pre ++ (code, p) :: suf) c > 1 →
        (done' c = true ↔ c ∈ pre.map Prod.fst ∨ c = code)) →
        join_from t (pre ++ (code, p) :: suf) suf done' =
          (suf.zipIdx (pre.length + 1)).filterMap fun x =>
            if x.1.1 = PAD ∨ x.1.1 = END then some (t.decode x.1.1 x.1.2)
            else if x.1.1 ∈ ((pre ++ (code, p) :: suf).take x.2).map Prod.fst then none
            else some (t.decode x.1.1 (payloads (pre ++ (code, p) :: suf) x.1.1)) := by
      intro done' hdone'
      rw [hassoc] at hdone' ⊢
      rw [← hlen]
      apply ih
      intro c hpad hend hcount
      rw [hdone' c hpad hend hcount]
      simp
    have htake : (pre ++ (code, p) :: suf).take pre.length = pre := List.take_left
    rw [join_from, List.zipIdx_cons, List.filterMap_cons]
    dsimp only
    rw [htake]
    by_cases hmark : code = PAD ∨ code = END
    · rw [if_pos (by tauto), if_pos hmark, hrest]
      intro c hpad hend hcount
      rw [hdone c hpad hend hcount]
      constructor
      · exact .inl
      · rintro (h | rfl)
        · exact h
        · exact absurd hmark (by tauto)
    · rw [if_neg hmark]
      by_cases hcount : counts (pre ++ (code, p) :: suf) code > 1
      · rw [if_neg (by tauto)]
        have hcode := hdone code (by tauto) (by tauto) hcount
        by_cases hin : code ∈ pre.map Prod.fst
        · rw [if_pos (hcode.2 hin), if_pos hin, hrest]
          intro c hpad hend hc
          rw [hdone c hpad hend hc]
          constructor
          · exact .inl
          · rintro (h | rfl)
            · exact h
            · exact hin
        · rw [if_neg fun h => hin (hcode.1 h), if_neg hin, hrest]
          intro c hpad hend hc
          by_cases hsame : c = code
          · simp [hsame]
          · rw [Function.update_of_ne hsame, hdone c hpad hend hc]
            simp [hsame]
      · -- a code that appears once is not split
        obtain ⟨hpay, hout⟩ := payloads_single (Nat.not_lt.1 hcount)
        rw [if_pos (by tauto), if_neg hout, hpay, hrest]
        intro c hpad hend hc
        rw [hdone c hpad hend hc]
        constructor
        · exact .inl
        · rintro (h | rfl)
          · exact h
          · exact absurd hc hcount

theorem decode_joined_eq (tlvs : List (UInt8 × Bytes)) : decode_joined t tlvs = joined t tlvs :=
  join_from_eq t [] tlvs (fun _ => false) (by simp)

/-- How many items stand for a code: as many as there are Pads and Ends, and one of any other. -/
theorem count_joined (tlvs : List (UInt8 × Bytes)) (code : UInt8) :
    (joined t tlvs).countP (fun it => it.code == code.toNat) =
      if code = PAD ∨ code = END then tlvs.countP fun x => x.1 == code
      else if code ∈ tlvs.map Prod.fst then 1 else 0 := by
  have hcode : ∀ c p, (t.decode c p).code = c.toNat := by
    intro c p
    unfold OptTable.decode
    split <;> rfl
  have hsame : ∀ c : UInt8, (c.toNat == code.toNat) = (c == code) := by
    intro c
    rw [Bool.eq_iff_iff, beq_iff_eq, beq_iff_eq, UInt8.toNat_inj]
  -- behind some options, a code that is among them counts no more
  have hfrom : ∀ suf pre : List (UInt8 × Bytes), pre ++ suf = tlvs →
      ((suf.zipIdx pre.length).filterMap fun x =>
        if x.1.1 = PAD ∨ x.1.1 = END then some (t.decode x.1.1 x.1.2)
        else if x.1.1 ∈ (tlvs.take x.2).map Prod.fst then none
        else some (t.decode x.1.1 (payloads tlvs x.1.1))).countP (fun it => it.code == code.toNat) =
      if code = PAD ∨ code = END then suf.countP fun x => x.1 == code
      else if code ∈ pre.map Prod.fst then 0
      else if code ∈ suf.map Prod.fst then 1 else 0 := by
    intro suf
    induction suf with
    | nil => simp
    | cons x suf ih =>
      intro pre hsplit
      have ih := ih (pre ++ [x]) (by simpa using hsplit)
      rw [List.length_append, List.length_singleton] at ih
      have htake : tlvs.take pre.length = pre := by
        rw [← hsplit]
        exact List.take_left
      have hold : code ∈ (pre ++ [x]).map Prod.fst ↔ code ∈ pre.map Prod.fst ∨ code = x.1 := by simp
      have hnew : code ∈ (x :: suf).map Prod.fst ↔ code = x.1 ∨ code ∈ suf.map Prod.fst := by simp
      simp only [hold] at ih
      simp only [hnew]
      rw [List.zipIdx_cons, List.filterMap_cons]
      dsimp only
      rw [htake]
      by_cases hmark : x.1 = PAD ∨ x.1 = END
      · rw [if_pos hmark]
        dsimp only
        rw [List.countP_cons, ih, hcode, hsame, List.countP_cons]
        by_cases hc : code = PAD ∨ code = END
        · rw [if_pos hc, if_pos hc]
        · have hne : x.1 ≠ code := fun h => hc (h ▸ hmark)
          rw [if_neg hc, if_neg hc]
          grind
      · rw [if_neg hmark]
        by_cases hin : x.1 ∈ pre.map Prod.fst
        · rw [if_pos hin]
          dsimp only
          rw [ih]
          by_cases hc : code = PAD ∨ code = END
          · have hne : x.1 ≠ code := fun h => hmark (h ▸ hc)
            rw [if_pos hc, if_pos hc, List.countP_cons]
            simp [hne]
          · rw [if_neg hc, if_neg hc]
            by_cases hx : code = x.1
            · subst hx
              grind
            · grind
        · rw [if_neg hin]
          dsimp only
          rw [List.countP_cons, ih, hcode, hsame]
          by_cases hc : code = PAD ∨ code = END
          · have hne : x.1 ≠ code := fun h => hmark (h ▸ hc)
            rw [if_pos hc, if_pos hc, List.countP_cons]
          · rw [if_neg hc, if_neg hc]
            by_cases hx : code = x.1
            · subst hx
              grind
            · grind
  simpa [joined] using hfrom tlvs [] rfl

/-! ## The options of a DHCP layer -/

/-- `DHCP_DESC` among the descriptions of the other layers. -/
def with_dhcp (others : ProtoId → OptionsDesc Sub) (p : ProtoId) : OptionsDesc Sub :=
  if p = Dhcp then ⟨none, some t.walk, some t⟩ else others p

/-- The options of a field of the BOOTP header, where the overload says that it holds some. -/
def taken_over (boot : Bytes) (v : Option UInt8) (bit : UInt8) (at_ len : ℕ) : List (UInt8 × Bytes) :=
  if v.any fun v => v &&& bit ≠ 0 then ((slice_checked boot at_ (at_ + len)).map t.walk_raw).getD []
  else []

/-- All the options of a DHCP layer: its own, those in `file`, those in `sname`. -/
def all_options (own boot : Bytes) : List (UInt8 × Bytes) :=
  let v := overload_value (t.walk_raw own)
  t.walk_raw own ++ taken_over t boot v FILE FILE_AT FILE_LEN ++
    taken_over t boot v SNAME SNAME_AT SNAME_LEN

omit [Level Sub] in
/-- The options of the layer's own region, and of those it says `file` and `sname` hold. -/
theorem all_options_regions (own boot : Bytes) :
    all_options t own boot = t.walk_raw own ++
      (overload_regions (t.walk_raw own)).flatMap fun r =>
        match slice_checked boot r.1 r.2 with
        | none => []
        | some region => t.walk_raw region := by
  have hpart : ∀ lo hi, ((slice_checked boot lo hi).map t.walk_raw).getD [] =
      match slice_checked boot lo hi with
      | none => []
      | some region => t.walk_raw region := by
    intro lo hi
    cases slice_checked boot lo hi <;> rfl
  unfold all_options overload_regions taken_over
  dsimp only
  cases overload_value (t.walk_raw own) with
  | none => simp
  | some v =>
    rw [hpart, hpart, List.append_assoc]
    congr 1
    by_cases hfile : v &&& FILE = 0 <;> by_cases hsname : v &&& SNAME = 0 <;> simp [hfile, hsname]

/-- **Split options are joined**: behind a BOOTP header a DHCP layer has one item for each code,
where the code first stands in its own options, `file` and `sname`, read off all its payloads in that
order; every Pad and End stands where it is. -/
theorem options_at_joins (others : ProtoId → OptionsDesc Sub) (buf : Bytes)
    {spans : List LayerSpan} {layer : ℕ} {s b : LayerSpan} (hs : spans[layer]? = some s)
    (hp : s.proto = Dhcp)
    (hb : ((spans.take layer).reverse.find? fun x => x.proto = .Bootp) = some b) :
    ∃ tlvs, tlvs = all_options t (s.header buf) (b.header buf) ∧
      options_at (with_dhcp t others) buf spans layer = some (joined t tlvs) ∧
      ∀ code : UInt8, (joined t tlvs).countP (fun it => it.code == code.toNat) =
        if code = PAD ∨ code = END then tlvs.countP fun x => x.1 == code
        else if code ∈ tlvs.map Prod.fst then 1 else 0 := by
  refine ⟨_, rfl, ?_, count_joined t _⟩
  have hdesc : with_dhcp t others s.proto = ⟨none, some t.walk, some t⟩ := if_pos hp
  have hregions := all_options_regions t (s.header buf) (b.header buf)
  unfold options_at
  rw [hs]
  dsimp only
  rw [hdesc, hb]
  dsimp only
  rw [hp, Option.filter_some, if_pos (by simp)]
  dsimp only
  rw [← hregions, decode_joined_eq]

end Joining

/-- A few entries of `DHCP_OPTIONS`. -/
def some_dhcp_options : OptTable Empty where
  proto := "DHCP".toList
  rule := .PayloadOnly
  end_ := some END
  opts := [⟨"pad".toList, PAD, .Bare, [], none⟩, ⟨"hostname".toList, 12, .Text, [], none⟩,
    ⟨"overload".toList, OVERLOAD, .LooseUint 1, [], none⟩, ⟨"end".toList, END, .Bare, [], none⟩]

/-- A BOOTP header whose `file` holds the second half of the host name behind it. -/
def split_name : Bytes :=
  List.replicate 108 0 ++ [12, 1, 98, 255] ++ List.replicate 124 0 ++ [99, 130, 83, 99] ++
    [52, 1, 1, 12, 1, 97, 255]

theorem options_at_joins_name :
    ∃ tlvs, tlvs = all_options some_dhcp_options (LayerSpan.header ⟨Dhcp, 240, 7, 7⟩ split_name)
        (LayerSpan.header ⟨.Bootp, 0, 240, 247⟩ split_name) ∧
      options_at (with_dhcp some_dhcp_options fun _ => ⟨none, none, none⟩) split_name
        [⟨.Bootp, 0, 240, 247⟩, ⟨Dhcp, 240, 7, 7⟩] 1 = some (joined some_dhcp_options tlvs) ∧
      ∀ code : UInt8,
        (joined some_dhcp_options tlvs).countP (fun it => it.code == code.toNat) =
          if code = PAD ∨ code = END then tlvs.countP fun x => x.1 == code
          else if code ∈ tlvs.map Prod.fst then 1 else 0 :=
  options_at_joins some_dhcp_options (fun _ => ⟨none, none, none⟩) split_name rfl rfl rfl

example : all_options some_dhcp_options (split_name.drop 240) (split_name.take 240) =
    [(52, [1]), (12, [97]), (255, []), (12, [98]), (255, [])] := by
  decide +kernel

end Wiry.Options
