/-
The options and the blocks of `RawPcapNgWriter` as `RawPcapNgReader` reads them: an option list comes
back as the values it was written for, an interface block as its link type and name, a packet block
as the metadata of its packet.

The writers are inverted first: what a block holds when it is written at all,
by the guards of `struct.pack`. Reading it back is then a walk over octets
whose every word is known.
-/
import Wiry.Pcapio.Interfaces
import Wiry.Pcapio.NgWriter

set_option autoImplicit false

namespace Wiry.Pcapio

open Packet Endian Capture Capture.Pcapng Rounding RawPcapNgWriter

/-! ## Options -/

theorem slice_middle (pre mid rest : Bytes) {a b : ℕ} (ha : a = pre.length)
    (hb : b = pre.length + mid.length) : slice (pre ++ mid ++ rest) a b = mid := by
  rw [slice, hb, ← List.length_append, List.take_left' rfl, ha, List.drop_left' rfl]

/-- What a list of options comes to. -/
def set_all (opts : Options) (os : List (UInt16 × Bytes)) : Options :=
  os.foldl (fun opts o => opts.set o.1 o.2) opts

/-- **Options are read as they were written**, whatever lies before them. -/
theorem read_options_encode (os : List (UInt16 × Bytes)) (hfit : Fit os) (pre : Bytes) {n : ℕ}
    (hn : os.length < n) (opts : Options) :
    read_options false (pre ++ os.flatMap encode_option ++ end_of_options) n pre.length opts =
      set_all opts os := by
  induction os generalizing pre n opts with
  | nil =>
    -- the end marker: no code, no length, and the walk stops
    obtain ⟨m, rfl⟩ : ∃ m, n = m + 1 := ⟨n - 1, by rw [List.length_nil] at hn; omega⟩
    have hcode : rd16 (pre ++ [] ++ end_of_options) pre.length false = some OPT_END :=
      rd16_word pre (le16 0) (by rw [List.append_nil, end_of_options, ← List.append_assoc]; rfl) rfl
    have hlen : rd16 (pre ++ [] ++ end_of_options) (pre.length + 2) false = some 0 :=
      rd16_word (pre ++ le16 0) [] (by
        rw [List.append_nil, end_of_options, List.append_nil, List.append_assoc]; rfl)
        (by rw [List.length_append, length_le16])
    rw [List.flatMap_nil, read_options, if_pos, hcode, hlen]
    · dsimp only
      rw [if_pos rfl]
      rfl
    · simp only [List.append_nil, List.length_append, end_of_options, length_le16]
      omega
  | cons o os ih =>
    obtain ⟨code, value⟩ := o
    obtain ⟨m, rfl⟩ : ∃ m, n = m + 1 := ⟨n - 1, by rw [List.length_cons] at hn; omega⟩
    obtain ⟨hcode, hsmall⟩ := hfit (code, value) List.mem_cons_self
    obtain ⟨rest, hrest⟩ : ∃ rest, rest = os.flatMap encode_option ++ end_of_options := ⟨_, rfl⟩
    obtain ⟨fill, hfill⟩ : ∃ fill, padded value = value ++ fill := ⟨_, rfl⟩
    have hwhole : pre ++ ((code, value) :: os).flatMap encode_option ++ end_of_options =
        pre ++ le16 code ++ le16 (UInt16.ofNat value.length) ++ value ++ (fill ++ rest) := by
      rw [List.flatMap_cons, encode_option, hrest]
      dsimp only
      rw [hfill]
      simp only [List.append_assoc]
    have hnext : pre ++ ((code, value) :: os).flatMap encode_option ++ end_of_options =
        (pre ++ encode_option (code, value)) ++ os.flatMap encode_option ++ end_of_options := by
      rw [List.flatMap_cons]
      simp only [List.append_assoc]
    have hlen : (pre ++ ((code, value) :: os).flatMap encode_option ++ end_of_options).length =
        pre.length + 4 + pad4 value.length + rest.length := by
      rw [hnext, List.append_assoc, ← hrest, List.length_append, List.length_append,
        length_encode_option]
      dsimp only
      omega
    have hpad := le_pad4 value.length
    have hnat : (UInt16.ofNat value.length).toNat = value.length := by
      rw [UInt16.toNat_ofNat', Nat.mod_eq_of_lt hsmall]
    -- code, length and value, each behind what precedes it
    have hread : rd16 (pre ++ ((code, value) :: os).flatMap encode_option ++ end_of_options)
        pre.length false = some code :=
      rd16_word pre (le16 (UInt16.ofNat value.length) ++ value ++ (fill ++ rest)) (by
        rw [hwhole]
        simp only [List.append_assoc]
        rfl) rfl
    have hread' : rd16 (pre ++ ((code, value) :: os).flatMap encode_option ++ end_of_options)
        (pre.length + 2) false = some (UInt16.ofNat value.length) :=
      rd16_word (pre ++ le16 code) (value ++ (fill ++ rest)) (by
        rw [hwhole]
        simp only [List.append_assoc]
        rfl) (by rw [List.length_append, length_le16])
    have hvalue : slice (pre ++ ((code, value) :: os).flatMap encode_option ++ end_of_options)
        (pre.length + 4) (pre.length + 4 + value.length) = value := by
      rw [hwhole]
      exact slice_middle (pre ++ le16 code ++ le16 (UInt16.ofNat value.length)) value _
        (by simp only [List.length_append, length_le16])
        (by simp only [List.length_append, length_le16])
    -- the next option is where the padding of this one ends
    have hplace : pre.length + 4 + pad4 value.length = (pre ++ encode_option (code, value)).length := by
      rw [List.length_append, length_encode_option]
      exact Nat.add_assoc _ _ _
    rw [read_options, if_pos (by omega), hread, hread']
    dsimp only
    rw [if_neg hcode, hnat, if_pos (by omega), hvalue, hplace, hnext]
    exact ih (fun o ho => hfit o (List.mem_cons_of_mem _ ho)) _ (by rw [List.length_cons] at hn; omega) _

/-- Options that fit are read back in order. -/
theorem options_of_encode {os : List (UInt16 × Bytes)} (hfit : Fit os) :
    options_of false (encode_options os) = set_all (fun _ => []) os := by
  unfold options_of encode_options
  cases os with
  | nil => rfl
  | cons o os =>
    have hlen := (length_encode_options (o :: os)).2
    unfold encode_options at hlen
    rw [if_neg nofun] at hlen ⊢
    -- the reader's fuel, the number of octets, covers every option
    have hmore : (o :: os).length < ((o :: os).flatMap encode_option ++ end_of_options).length := by
      have hflat : ∀ l : List (UInt16 × Bytes), l.length ≤ (l.flatMap encode_option).length := by
        intro l
        induction l with
        | nil => exact le_rfl
        | cons a l ih =>
          rw [List.flatMap_cons, List.length_append, length_encode_option, List.length_cons]
          omega
      have hend : end_of_options.length = 4 := rfl
      have := hflat (o :: os)
      rw [List.length_append, hend]
      omega
    exact read_options_encode (o :: os) hfit [] hmore _

/-- An option of another code changes nothing. -/
theorem set_all_other (os : List (UInt16 × Bytes)) {opts : Options} {code : UInt16}
    (h : ∀ o ∈ os, o.1 ≠ code) : set_all opts os code = opts code := by
  induction os generalizing opts with
  | nil => rfl
  | cons o os ih =>
    obtain ⟨ho, hos⟩ := List.forall_mem_cons.1 h
    show set_all (opts.set o.1 o.2) os code = _
    rw [ih hos, Options.set, if_neg (Ne.symm ho)]

theorem set_all_comments (comments : List Bytes) (opts : Options) :
    set_all opts (comments.map fun c => (1, c)) 1 = opts 1 ++ comments := by
  induction comments generalizing opts with
  | nil => exact (List.append_nil _).symm
  | cons c comments ih =>
    -- a comment is added where another code is replaced
    have hset : opts.set 1 c 1 = opts 1 ++ [c] := by
      rw [Options.set, if_pos rfl, if_pos (by decide)]
    show set_all (opts.set 1 c) (comments.map fun c => (1, c)) 1 = _
    rw [ih, hset, List.append_assoc]
    rfl

theorem set_all_append (opts : Options) (os os' : List (UInt16 × Bytes)) :
    set_all opts (os ++ os') = set_all (set_all opts os) os' := List.foldl_append

/-- **What the options of a packet say is what they were written for.** -/
theorem options_for_read (comments : List Bytes) (flags : Option ℤ) :
    set_all (fun _ => []) (options_for comments flags) 1 = comments ∧
      set_all (fun _ => []) (options_for comments flags) 2 =
        flags.toList.map (fun flags => le32 (UInt32.ofNat flags.toNat)) ∧
      ∀ code, code ≠ 1 → code ≠ 2 → set_all (fun _ => []) (options_for comments flags) code = [] := by
  -- Comments and flags have codes of their own.
  have hcomments : ∀ o ∈ comments.map (fun c => ((1 : UInt16), c)), o.1 = 1 := by
    intro o ho
    obtain ⟨c, -, rfl⟩ := List.mem_map.1 ho
    rfl
  have hflags : ∀ o ∈ flags.toList.map (fun flags =>
      ((2 : UInt16), le32 (UInt32.ofNat flags.toNat))), o.1 = 2 := by
    intro o ho
    obtain ⟨c, -, rfl⟩ := List.mem_map.1 ho
    rfl
  unfold options_for
  rw [set_all_append]
  refine ⟨?_, ?_, ?_⟩
  · have hne : (2 : UInt16) ≠ 1 := by decide
    rw [set_all_other _ fun o ho => (hflags o ho).trans_ne hne, set_all_comments, List.nil_append]
  · cases flags with
    | none =>
      have hne : (1 : UInt16) ≠ 2 := by decide
      exact set_all_other _ fun o ho => (hcomments o ho).trans_ne hne
    | some v =>
      show (set_all (fun _ => []) (comments.map fun c => (1, c))).set 2
        (le32 (UInt32.ofNat v.toNat)) 2 = _
      rw [Options.set, if_pos rfl, if_neg (by decide)]
      rfl
  · intro code h1 h2
    rw [set_all_other _ fun o ho => (hflags o ho).trans_ne (Ne.symm h2),
      set_all_other _ fun o ho => (hcomments o ho).trans_ne (Ne.symm h1)]

/-! ## The blocks as Python reads them -/

/-- What is kept of an interface that was written. -/
def interface_of (linktype : ℕ) (ifname : Option Bytes) : Interface where
  linktype := UInt16.ofNat linktype
  snaplen := 262144
  tsresol := DEFAULT_TSRESOL
  name := ifname
  comment := none

/-- An interface block that is written is read back as its interface. -/
theorem idb_written {linktype : ℕ} {ifname : Option Bytes} (hfit : Fit (name_option ifname)) :
    idb false (le16 (UInt16.ofNat linktype) ++ le16 0 ++ le32 262144 ++
      encode_options (name_option ifname)) = some (interface_of linktype ifname) := by
  obtain ⟨opts, hopts⟩ : ∃ opts, opts = encode_options (name_option ifname) := ⟨_, rfl⟩
  have hlink : rd16 (le16 (UInt16.ofNat linktype) ++ le16 0 ++ le32 262144 ++ opts) 0 false =
      some (UInt16.ofNat linktype) :=
    rd16_word [] (le16 0 ++ le32 262144 ++ opts) (by simp only [List.append_assoc]; rfl) rfl
  have hsnap : rd32 (le16 (UInt16.ofNat linktype) ++ le16 0 ++ le32 262144 ++ opts) 4 false =
      some 262144 :=
    rd32_word (le16 (UInt16.ofNat linktype) ++ le16 0) opts rfl
      (by simp only [List.length_append, length_le16])
  have hdrop : (le16 (UInt16.ofNat linktype) ++ le16 0 ++ le32 262144 ++ opts).drop 8 = opts :=
    List.drop_left' (by simp only [List.length_append, length_le16, length_le32])
  rw [← hopts]
  unfold idb
  rw [hlink, hsnap]
  dsimp only
  rw [hdrop, hopts, options_of_encode hfit]
  cases ifname with
  | none => rfl
  | some name => rfl

/-- What is kept of a packet that was written under an interface. -/
def metadata_of (iface : Interface) (ticks : ℤ) (orglen : ℕ) (comments : List Bytes)
    (flags : Option ℤ) : Metadata where
  linktype := iface.linktype
  tsresol := iface.tsresol
  tshigh := some (UInt32.ofNat (ticks / 2 ^ 32 % 2 ^ 32).toNat)
  tslow := some (UInt32.ofNat (ticks % 2 ^ 32).toNat)
  wirelen := UInt32.ofNat orglen
  comments := if comments = [] then none else some comments
  ifname := iface.name
  direction := flags.map fun flags => UInt32.ofNat flags.toNat &&& 3
  proc := none
  eproc := none

/-- A packet block's body: five words, the octets and their padding, the options. -/
def epb_body (ifid : ℕ) (ticks : ℤ) (orglen : ℕ) (raw_pkt : Bytes) (os : List (UInt16 × Bytes)) : Bytes :=
  padded ((epb_words ifid ticks raw_pkt.length orglen).flatMap le32 ++ raw_pkt) ++ encode_options os

section Body

variable {ifid orglen : ℕ} {ticks : ℤ} {raw_pkt : Bytes} {os : List (UInt16 × Bytes)}

theorem epb_body_split : ∃ fill, epb_body ifid ticks orglen raw_pkt os =
    (epb_words ifid ticks raw_pkt.length orglen).flatMap le32 ++ raw_pkt ++ fill ++ encode_options os ∧
      fill.length = pad4 raw_pkt.length - raw_pkt.length := by
  refine ⟨_, rfl, ?_⟩
  have hwords : ((epb_words ifid ticks raw_pkt.length orglen).flatMap le32).length = 20 := rfl
  rw [List.length_replicate, List.length_append, hwords, pad4, pad4]
  omega

theorem length_epb_body : (epb_body ifid ticks orglen raw_pkt os).length =
    20 + pad4 raw_pkt.length + (encode_options os).length := by
  obtain ⟨fill, hbody, hfill⟩ := @epb_body_split ifid orglen ticks raw_pkt os
  have hwords : ((epb_words ifid ticks raw_pkt.length orglen).flatMap le32).length = 20 := rfl
  have hpad := le_pad4 raw_pkt.length
  rw [hbody]
  simp only [List.length_append, hwords, hfill]
  omega

/-- The `k`-th word of a packet block. -/
theorem rd32_epb_body {k : ℕ} {v : UInt32}
    (h : (epb_words ifid ticks raw_pkt.length orglen)[k]? = some v) :
    rd32 (epb_body ifid ticks orglen raw_pkt os) (4 * k) false = some v := by
  obtain ⟨fill, hbody, -⟩ := @epb_body_split ifid orglen ticks raw_pkt os
  obtain ⟨hk, hv⟩ := List.getElem?_eq_some_iff.1 h
  have hsplit : epb_words ifid ticks raw_pkt.length orglen =
      (epb_words ifid ticks raw_pkt.length orglen).take k ++ v ::
        (epb_words ifid ticks raw_pkt.length orglen).drop (k + 1) := by
    rw [← hv, ← List.drop_eq_getElem_cons hk, List.take_append_drop]
  -- the words in front are four octets each
  have hlen : ∀ l : List UInt32, (l.flatMap le32).length = 4 * l.length := by
    intro l
    induction l with
    | nil => rfl
    | cons w l ih =>
      rw [List.flatMap_cons, List.length_append, length_le32, ih, List.length_cons]
      omega
  refine rd32_word (((epb_words ifid ticks raw_pkt.length orglen).take k).flatMap le32)
    (((epb_words ifid ticks raw_pkt.length orglen).drop (k + 1)).flatMap le32 ++ raw_pkt ++ fill ++
      encode_options os) ?_ ?_
  · rw [hbody]
    conv_lhs => rw [hsplit]
    rw [List.flatMap_append, List.flatMap_cons]
    simp only [List.append_assoc]
    rfl
  · rw [hlen, List.length_take, Nat.min_eq_left (by omega)]

/-- The data are behind five words. -/
theorem data_epb_body : slice_checked (epb_body ifid ticks orglen raw_pkt os) 20 (20 + raw_pkt.length) =
    some raw_pkt := by
  obtain ⟨fill, hbody, -⟩ := @epb_body_split ifid orglen ticks raw_pkt os
  rw [hbody, List.append_assoc]
  exact slice_checked_middle _ _ _ rfl rfl

/-- The options behind the padding. -/
theorem options_epb_body :
    (epb_body ifid ticks orglen raw_pkt os).drop (20 + pad4 raw_pkt.length) = encode_options os := by
  obtain ⟨fill, hbody, hfill⟩ := @epb_body_split ifid orglen ticks raw_pkt os
  have hpad := le_pad4 raw_pkt.length
  have hwords : ((epb_words ifid ticks raw_pkt.length orglen).flatMap le32).length = 20 := rfl
  rw [hbody]
  refine List.drop_left' ?_
  simp only [List.length_append, hwords, hfill]
  omega

/-- **A packet block is read as the packet it was written for**, under the interface of its id. -/
theorem packet_block_written {ifaces : List Interface} {processes : List Process} {iface : Interface}
    {comments : List Bytes} {flags : Option ℤ} (hid : ifid < 2 ^ 32)
    (hlen : raw_pkt.length < 2 ^ 32) (hfit : Fit (options_for comments flags))
    (hiface : ifaces[ifid]? = some iface) :
    packet_block false BLOCK_EPB (epb_body ifid ticks orglen raw_pkt (options_for comments flags))
        ifaces processes = some (metadata_of iface ticks orglen comments flags) := by
  have hlong := @length_epb_body ifid orglen ticks raw_pkt (options_for comments flags)
  have hword := fun k v => @rd32_epb_body ifid orglen ticks raw_pkt (options_for comments flags) k v
  have hcap : (UInt32.ofNat raw_pkt.length).toNat = raw_pkt.length := by
    rw [UInt32.toNat_ofNat', Nat.mod_eq_of_lt hlen]
  have hid' : (UInt32.ofNat ifid).toNat = ifid := by
    rw [UInt32.toNat_ofNat', Nat.mod_eq_of_lt hid]
  obtain ⟨hone, htwo, hothers⟩ := options_for_read comments flags
  unfold packet_block
  rw [if_neg (by omega)]
  dsimp only
  rw [if_neg (by decide), hword 0 _ rfl, hword 1 _ rfl, hword 2 _ rfl, hword 3 _ rfl, hword 4 _ rfl]
  dsimp only
  rw [hid', hiface]
  dsimp only
  -- neither of the process options is among those the writer puts down
  rw [if_pos rfl, hcap, options_epb_body, options_of_encode hfit, hone, htwo,
    hothers 0x8001 (by decide) (by decide), hothers 0x8003 (by decide) (by decide)]
  unfold metadata_of
  cases flags with
  | none => rfl
  | some v =>
    have hfour : (le32 (UInt32.ofNat v.toNat)).length = 4 := length_le32 _
    have hwordof : word_of false [le32 (UInt32.ofNat v.toNat)] = some (UInt32.ofNat v.toNat) := by
      unfold word_of
      dsimp only
      rw [if_pos hfour]
      exact rd32_word [] [] (by rw [List.append_nil]; rfl) rfl
    show some (Metadata.mk _ _ _ _ _ _ _ (Option.map _ (word_of false [_])) _ _) = _
    rw [hwordof]
    rfl

end Body

end Wiry.Pcapio
