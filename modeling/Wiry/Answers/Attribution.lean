/-
Which IP header a direct answer is attributed to. `find` takes the first layer of a kind,
the addresses' and the ports' each on its own, so the pair that is compared is the one that
carries the compared header only where no other IP layer stands in between.
-/
import Wiry.Answers.Reply

set_option autoImplicit false

namespace Wiry.Answers

open Packet (Bytes LayerSpan ProtoId Layers Addr slice_checked dissect_spans)

/-! ## Layers by position -/

/-- The layers of a frame by their protocols. -/
def Frame.protos (f : Frame) : List ProtoId := f.spans.map (·.proto)

def is_ip (p : ProtoId) : Bool := p == .Ipv4 || p == .Ipv6

/-- Where the layer stands whose addresses `ip_pair` reads. -/
def ip_at (ps : List ProtoId) : Option ℕ :=
  match ps.idxOf? .Ipv4 with
  | some i => some i
  | none => ps.idxOf? .Ipv6

/-- Where the last IP layer of a list stands. -/
def last_ip : List ProtoId → Option ℕ
  | [] => none
  | p :: ps =>
    match last_ip ps with
    | some i => some (i + 1)
    | none => if is_ip p then some 0 else none

/-- Where the IP layer stands that carries the first layer of protocol `p`. -/
def carrier_at (ps : List ProtoId) (p : ProtoId) : Option ℕ := last_ip (ps.takeWhile (· ≠ p))

/-- The IP layers ahead of the first layer of protocol `p`. -/
def ips_ahead (ps : List ProtoId) (p : ProtoId) : List ProtoId :=
  (ps.takeWhile (· ≠ p)).filter is_ip

/-- Ahead of the first layer of protocol `p` stand one IPv4 layer and no IPv6 layer behind it, or,
where the frame has no IPv4 layer, one IPv6 layer. -/
def Untunnelled (ps : List ProtoId) (p : ProtoId) : Prop :=
  if .Ipv4 ∈ ps then
    (ips_ahead ps p).count .Ipv4 = 1 ∧ (ips_ahead ps p).getLast? = some .Ipv4
  else ips_ahead ps p = [.Ipv6]

instance (ps : List ProtoId) (p : ProtoId) : Decidable (Untunnelled ps p) := by
  unfold Untunnelled
  infer_instance

/-- The address pair of the layer at position `i`. -/
def pair_at (f : Frame) (i : ℕ) : Option Pair :=
  f.spans[i]?.bind fun s =>
    if s.proto = .Ipv4 then pair_v4 (hdr f.buf s)
    else if s.proto = .Ipv6 then pair_v6 (hdr f.buf s) else none

/-- The address pair of the IP layer that carries the first layer of protocol `p`. -/
def carrier_pair (f : Frame) (p : ProtoId) : Option Pair := (carrier_at f.protos p).bind (pair_at f)

/-- The protocol whose header a reply to a key is compared by. -/
def ReplyKind.compared : ReplyKind → Option ProtoId
  | .IcmpEcho _ _ => some .Icmp
  | .Icmpv6Echo _ _ => some .Icmpv6
  | .Tcp _ _ _ => some .Tcp
  | .Udp _ _ _ => some .Udp
  | .Arp _ => none
  | .Ip => none

/-- What two sent frames answered by one reply share, their addresses apart. -/
def ReplyKind.SameQuestion : ReplyKind → ReplyKind → Prop
  | .IcmpEcho id seq, .IcmpEcho id' seq' => id = id' ∧ seq = seq'
  | .Icmpv6Echo id seq, .Icmpv6Echo id' seq' => id = id' ∧ seq = seq'
  | .Tcp sport dport _, .Tcp sport' dport' _ => sport = sport' ∧ dport = dport'
  | .Udp sport dport dns, .Udp sport' dport' dns' =>
    sport = sport' ∧ dport = dport' ∧ ∀ a ∈ dns, ∀ b ∈ dns', a.id = b.id
  | _, _ => True

/-! ## The carrier is the layer compared -/

theorem last_ip_eq_none {ps : List ProtoId} : last_ip ps = none ↔ ps.filter is_ip = [] := by
  induction ps with
  | nil => simp [last_ip]
  | cons p ps ih =>
    cases hlast : last_ip ps with
    | some i =>
      have hne : ps.filter is_ip ≠ [] := fun h => by simp [ih.2 h] at hlast
      cases hp : is_ip p <;> simp [last_ip, hlast, hp, hne]
    | none => cases hp : is_ip p <;> simp [last_ip, hlast, hp, ih.1 hlast]

theorem last_ip_cons_some {p : ProtoId} {ps : List ProtoId} {i : ℕ} :
    last_ip (p :: ps) = some (i + 1) ↔ last_ip ps = some i := by
  cases hlast : last_ip ps with
  | some j => simp [last_ip, hlast]
  | none => cases hp : is_ip p <;> simp [last_ip, hlast, hp]

theorem last_ip_cons_zero {p : ProtoId} {ps : List ProtoId} :
    last_ip (p :: ps) = some 0 ↔ is_ip p = true ∧ ps.filter is_ip = [] := by
  rw [← last_ip_eq_none]
  cases hlast : last_ip ps with
  | some j => simp [last_ip, hlast]
  | none => simp [last_ip, hlast]

/-- The last IP layer of a head is the frame's first IPv4 layer exactly where the head's IP
layers hold one IPv4 layer, at their end. -/
theorem last_ip_eq_v4 {ahead rest : List ProtoId} {i : ℕ}
    (h : (ahead ++ rest).idxOf? .Ipv4 = some i) :
    last_ip ahead = some i ↔ (ahead.filter is_ip).count .Ipv4 = 1
      ∧ (ahead.filter is_ip).getLast? = some .Ipv4 := by
  induction ahead generalizing i with
  | nil => simp [last_ip]
  | cons p ahead ih =>
    rw [List.cons_append, List.idxOf?_cons] at h
    by_cases hp : p = .Ipv4
    · subst hp
      obtain rfl : 0 = i := by simpa using h
      have hip : is_ip .Ipv4 = true := rfl
      rw [last_ip_cons_zero, List.filter_cons_of_pos hip, List.count_cons_self, List.getLast?_cons]
      constructor
      · rintro ⟨_, hnil⟩
        simp [hnil]
      · rintro ⟨hcount, hlast⟩
        refine ⟨hip, ?_⟩
        -- a further IP layer would end the list, and be an IPv4 layer counted twice
        have hnone : .Ipv4 ∉ ahead.filter is_ip := List.count_eq_zero.1 (by omega)
        cases hend : (ahead.filter is_ip).getLast? with
        | none => exact List.getLast?_eq_none_iff.1 hend
        | some q =>
          rw [hend, Option.getD_some, Option.some.injEq] at hlast
          exact absurd (hlast ▸ List.mem_of_getLast? hend) hnone
    · rw [if_neg (by simpa using hp)] at h
      obtain ⟨j, hj, rfl⟩ := Option.map_eq_some_iff.1 h
      rw [last_ip_cons_some, ih hj]
      cases hip : is_ip p with
      | false => rw [List.filter_cons_of_neg (by simp [hip])]
      | true =>
        rw [List.filter_cons_of_pos hip, List.count_cons_of_ne hp, List.getLast?_cons]
        cases (ahead.filter is_ip).getLast? <;> simp [hp]

/-- The last IP layer of a head is the frame's first IPv6 layer exactly where the head has no
other IP layer. -/
theorem last_ip_eq_v6 {ahead rest : List ProtoId} {i : ℕ} (hv4 : .Ipv4 ∉ ahead)
    (h : (ahead ++ rest).idxOf? .Ipv6 = some i) :
    last_ip ahead = some i ↔ ahead.filter is_ip = [.Ipv6] := by
  induction ahead generalizing i with
  | nil => simp [last_ip]
  | cons p ahead ih =>
    rw [List.cons_append, List.idxOf?_cons] at h
    rw [List.mem_cons, not_or] at hv4
    by_cases hp : p = .Ipv6
    · subst hp
      obtain rfl : 0 = i := by simpa using h
      have hip : is_ip .Ipv6 = true := rfl
      rw [last_ip_cons_zero, List.filter_cons_of_pos hip]
      simp [hip]
    · rw [if_neg (by simpa using hp)] at h
      obtain ⟨j, hj, rfl⟩ := Option.map_eq_some_iff.1 h
      have hip : is_ip p = false := by simp [is_ip, hp, Ne.symm hv4.1]
      rw [last_ip_cons_some, ih hv4.2 hj, List.filter_cons_of_neg (by simp [hip])]

/-- With an IP layer in the chain, a carrier is found exactly where no tunnel stands between that
layer and the protocol, and it is that layer. -/
theorem carrier_at_iff {ps : List ProtoId} (p : ProtoId) {i : ℕ} (h : ip_at ps = some i) :
    carrier_at ps p = some i ↔ Untunnelled ps p := by
  have hsplit : ps.takeWhile (· ≠ p) ++ ps.dropWhile (· ≠ p) = ps := List.takeWhile_append_dropWhile
  unfold carrier_at Untunnelled ips_ahead
  unfold ip_at at h
  split at h
  · next j hj =>
    cases h
    rw [if_pos (List.isSome_idxOf?.1 (by rw [hj]; rfl))]
    exact last_ip_eq_v4 (hsplit.symm ▸ hj)
  · next hnone =>
    have hv4 : .Ipv4 ∉ ps := List.idxOf?_eq_none_iff.1 hnone
    rw [if_neg hv4]
    exact last_ip_eq_v6 (fun hmem => hv4 (List.takeWhile_prefix _ |>.subset hmem)) (hsplit.symm ▸ h)

/-! ## The pair that is compared -/

theorem find_eq_none {spans : List LayerSpan} {p : ProtoId} (h : find spans p = none) :
    (spans.map (·.proto)).idxOf? p = none := by
  rw [List.idxOf?_eq_none_iff, List.mem_map]
  rintro ⟨s, hs, hp⟩
  have hno := List.find?_eq_none.1 h s hs
  simp [hp] at hno

/-- What `find` returns is the span at the first position of the protocol. -/
theorem find_eq_some {spans : List LayerSpan} {p : ProtoId} {s : LayerSpan}
    (h : find spans p = some s) :
    ∃ i, (spans.map (·.proto)).idxOf? p = some i ∧ spans[i]? = some s ∧ s.proto = p := by
  induction spans with
  | nil => cases h
  | cons t spans ih =>
    rw [find, List.find?_cons] at h
    rw [List.map_cons, List.idxOf?_cons]
    by_cases ht : t.proto = p
    · rw [decide_eq_true ht] at h
      cases h
      exact ⟨0, by simp [ht], rfl, ht⟩
    · rw [decide_eq_false ht] at h
      obtain ⟨i, hi, hget, hp⟩ := ih h
      exact ⟨i + 1, by simp [ht, hi], hget, hp⟩

/-- `ip_pair` reads the layer at `ip_at`. -/
theorem ip_pair_at {f : Frame} {pair : Pair} (h : ip_pair f.buf f.spans = some pair) :
    ∃ i, ip_at f.protos = some i ∧ pair_at f i = some pair := by
  unfold ip_pair at h
  split at h
  · next s hs =>
    obtain ⟨i, hi, hget, hp⟩ := find_eq_some hs
    refine ⟨i, by rw [ip_at, Frame.protos, hi], ?_⟩
    rw [pair_at, hget, Option.bind_some, if_pos hp, h]
  · next hnone =>
    split at h
    · next s hs =>
      obtain ⟨i, hi, hget, hp⟩ := find_eq_some hs
      refine ⟨i, by rw [ip_at, Frame.protos, find_eq_none hnone, hi], ?_⟩
      rw [pair_at, hget, Option.bind_some, if_neg (by simp [hp]), if_pos hp, h]
    · cases h

/-- The layer whose address pair is compared carries the first layer of protocol `p`. -/
def Carried (f : Frame) (p : ProtoId) : Prop :=
  ∃ i, ip_at f.protos = some i ∧ carrier_at f.protos p = some i

theorem carried_iff {f : Frame} {pair : Pair} (h : ip_pair f.buf f.spans = some pair) (p : ProtoId) :
    Carried f p ↔ Untunnelled f.protos p := by
  obtain ⟨i, hi, _⟩ := ip_pair_at h
  rw [← carrier_at_iff p hi]
  constructor
  · rintro ⟨j, hj, hcarrier⟩
    rwa [hi.symm.trans hj]
  · intro hcarrier
    exact ⟨i, hi, hcarrier⟩

theorem carrier_pair_eq {f : Frame} {pair : Pair} (h : ip_pair f.buf f.spans = some pair)
    {p : ProtoId} (hp : Untunnelled f.protos p) : carrier_pair f p = some pair := by
  obtain ⟨i, hi, hpair⟩ := ip_pair_at h
  rw [carrier_pair, (carrier_at_iff p hi).2 hp, Option.bind_some, hpair]

/-! ## Keys and answers -/

/-- A key whose kind compares addresses was filed under the frame's own address pair. -/
theorem ip_pair_of_key {f : Frame} {key : ReplyKey} (h : reply_key f = some key) {p : ProtoId}
    (hp : key.kind.compared = some p) : ip_pair f.buf f.spans = some ⟨key.src, key.dst, key.v6⟩ := by
  unfold reply_key at h
  split at h
  · next s hs =>
    simp only [arp_key, Option.bind_eq_bind, Option.bind_eq_some_iff] at h
    obtain ⟨op, _, h⟩ := h
    split at h
    · cases h
    · obtain ⟨pdst, _, h⟩ := Option.bind_eq_some_iff.1 h
      cases h
      cases hp
  · split at h
    · cases h
    · next pair hpair =>
      dsimp only at h
      split at h
      · cases h
      · cases h
        exact hpair

theorem swapped_true {key : ReplyKey} {pair : Pair} (h : swapped key pair true = true) :
    pair = ⟨key.dst, key.src, key.v6⟩ := by
  simp only [swapped, Bool.not_true, Bool.false_or, Bool.and_eq_true, beq_iff_eq] at h
  obtain ⟨hv6, hsrc, hdst⟩ := h
  rw [← hv6, ← hsrc, ← hdst]

/-- What a direct answer's header holds, its addresses apart. -/
def Answered (key : ReplyKey) (f : Frame) : Prop :=
  match key.kind with
  | .IcmpEcho id seq =>
    key.v6 = false ∧ ∃ s, find f.spans .Icmp = some s ∧ echo (hdr f.buf s) ECHO_REPLY = some (id, seq)
  | .Icmpv6Echo id seq =>
    key.v6 = true
      ∧ ∃ s, find f.spans .Icmpv6 = some s ∧ echo (body f.buf s) ECHO_REPLY_V6 = some (id, seq)
  | .Tcp sport dport _ =>
    ∃ s, find f.spans .Tcp = some s
      ∧ be16 (hdr f.buf s) 0 = some dport ∧ be16 (hdr f.buf s) 2 = some sport
  | .Udp sport dport dns =>
    ∃ s, find f.spans .Udp = some s
      ∧ be16 (hdr f.buf s) 0 = some dport ∧ be16 (hdr f.buf s) 2 = some sport
      ∧ dns_back f.buf f.spans dns = true
  | .Arp _ => False
  | .Ip => False

/-- A direct answer is an address pair that is met and a header that is. -/
theorem direct_answer_iff (key : ReplyKey) (f : Frame) (check_addr : Bool) :
    direct_answer key f check_addr = true ↔
      ∃ pair, ip_pair f.buf f.spans = some pair ∧ swapped key pair check_addr = true
        ∧ Answered key f := by
  unfold direct_answer Answered
  cases ip_pair f.buf f.spans with
  | none => simp
  | some pair =>
    simp only [Option.some.injEq, exists_eq_left']
    -- By the request's kind: an echo by its two numbers, a port by the two swapped back.
    cases key.kind with
    | IcmpEcho id seq =>
      simp only [Option.any_eq_true, Bool.and_eq_true, beq_iff_eq, Bool.not_eq_true']
      grind
    | Icmpv6Echo id seq =>
      simp only [Option.any_eq_true, Bool.and_eq_true, beq_iff_eq]
      grind
    | Tcp sport dport ack =>
      simp only [ports_back, Option.any_eq_true, Bool.and_eq_true, beq_iff_eq]
      grind
    | Udp sport dport dns =>
      simp only [ports_back, Option.any_eq_true, Bool.and_eq_true, beq_iff_eq]
      grind
    | Arp pdst => simp
    | Ip => simp

theorem Answered.compared {key : ReplyKey} {f : Frame} (h : Answered key f) :
    ∃ p, key.kind.compared = some p := by
  unfold Answered at h
  cases hkind : key.kind with
  | IcmpEcho id seq => exact ⟨_, rfl⟩
  | Icmpv6Echo id seq => exact ⟨_, rfl⟩
  | Tcp sport dport ack => exact ⟨_, rfl⟩
  | Udp sport dport dns => exact ⟨_, rfl⟩
  | Arp pdst => rw [hkind] at h; exact h.elim
  | Ip => rw [hkind] at h; exact h.elim

theorem dns_back_id {buf : Bytes} {spans : List LayerSpan} {dns dns' : Option DnsAsk}
    (h : dns_back buf spans dns = true) (h' : dns_back buf spans dns' = true) :
    ∀ a ∈ dns, ∀ b ∈ dns', a.id = b.id := by
  rintro a rfl b rfl
  simp only [dns_back, Option.any_eq_true, Bool.and_eq_true, beq_iff_eq] at h h'
  obtain ⟨_, d, hd, ha⟩ := h
  obtain ⟨_, d', hd', hb⟩ := h'
  rw [hd, Option.some.injEq] at hd'
  subst hd'
  rw [ha, Option.some.injEq, DnsAsk.mk.injEq] at hb
  exact hb.1

theorem compared_inj {k k' : ReplyKind} {p : ProtoId} (h : k.compared = some p)
    (h' : k'.compared = some p) :
    (∃ id seq id' seq', k = .IcmpEcho id seq ∧ k' = .IcmpEcho id' seq')
      ∨ (∃ id seq id' seq', k = .Icmpv6Echo id seq ∧ k' = .Icmpv6Echo id' seq')
      ∨ (∃ sport dport ack sport' dport' ack', k = .Tcp sport dport ack ∧ k' = .Tcp sport' dport' ack')
      ∨ ∃ sport dport dns sport' dport' dns', k = .Udp sport dport dns ∧ k' = .Udp sport' dport' dns' := by
  rw [← h'] at h
  cases k <;> cases k' <;> simp [ReplyKind.compared] at h h' ⊢

/-- Two keys one frame answers by the same header ask the same. -/
theorem Answered.same {key key' : ReplyKey} {f : Frame} (h : Answered key f) (h' : Answered key' f)
    {p : ProtoId} (hp : key.kind.compared = some p) (hp' : key'.kind.compared = some p) :
    key.kind.SameQuestion key'.kind := by
  -- The transports compared are the same, so the two keys are of one shape; the cases are the
  -- shapes.
  unfold Answered at h h'
  obtain ⟨id, seq, id', seq', hk, hk'⟩ | ⟨id, seq, id', seq', hk, hk'⟩
    | ⟨sport, dport, ack, sport', dport', ack', hk, hk'⟩
    | ⟨sport, dport, dns, sport', dport', dns', hk, hk'⟩ := compared_inj hp hp'
  -- ICMP: the answer carries the one id and sequence number, so both keys ask with it.
  · rw [hk] at h ⊢
    rw [hk'] at h' ⊢
    obtain ⟨_, s, hs, he⟩ := h
    obtain ⟨_, t, ht, he'⟩ := h'
    obtain rfl := Option.some.inj (hs.symm.trans ht)
    rw [he, Option.some.injEq, Prod.mk.injEq] at he'
    exact he'
  · rw [hk] at h ⊢
    rw [hk'] at h' ⊢
    obtain ⟨_, s, hs, he⟩ := h
    obtain ⟨_, t, ht, he'⟩ := h'
    obtain rfl := Option.some.inj (hs.symm.trans ht)
    rw [he, Option.some.injEq, Prod.mk.injEq] at he'
    exact he'
  -- A port pair is read off the frame as well, and it is the same frame.
  · rw [hk] at h ⊢
    rw [hk'] at h' ⊢
    obtain ⟨s, hs, hd, hs0⟩ := h
    obtain ⟨t, ht, hd', hs0'⟩ := h'
    obtain rfl := Option.some.inj (hs.symm.trans ht)
    exact ⟨Option.some.inj (hs0.symm.trans hs0'), Option.some.inj (hd.symm.trans hd')⟩
  · rw [hk] at h ⊢
    rw [hk'] at h' ⊢
    obtain ⟨s, hs, hd, hs0, hdns⟩ := h
    obtain ⟨t, ht, hd', hs0', hdns'⟩ := h'
    obtain rfl := Option.some.inj (hs.symm.trans ht)
    exact ⟨Option.some.inj (hs0.symm.trans hs0'), Option.some.inj (hd.symm.trans hd'),
      dns_back_id hdns hdns'⟩

/-! ## Address checking -/

theorem swapped_of_checked {key : ReplyKey} {pair : Pair} (h : swapped key pair true = true) :
    swapped key pair false = true := by
  simp only [swapped, Bool.and_eq_true] at h ⊢
  exact ⟨h.1, rfl⟩

theorem quotes_of_checked {q : Quote} {inner : Bytes} {ip : LayerSpan}
    (h : quotes q inner ip true = true) : quotes q inner ip false = true := by
  simp only [quotes, Bool.and_eq_true] at h ⊢
  exact ⟨⟨⟨rfl, h.1.1.2⟩, h.1.2⟩, h.2⟩

/-- Without address checking nothing less is an answer. -/
theorem answers_unchecked (L : Layers) {key : ReplyKey} {f : Frame}
    (h : answers_matching L key f true = true) : answers_matching L key f false = true := by
  have hdirect : direct_answer key f true = true → direct_answer key f false = true := by
    rw [direct_answer_iff, direct_answer_iff]
    rintro ⟨pair, hpair, hswap, hanswered⟩
    exact ⟨pair, hpair, swapped_of_checked hswap, hanswered⟩
  have hquoted : quoted_back L key f true = true → quoted_back L key f false = true := by
    unfold quoted_back
    split
    · simp only [Bool.and_eq_true, Option.any_eq_true]
      rintro ⟨htype, ip, hip, hq⟩
      exact ⟨htype, ip, hip, quotes_of_checked hq⟩
    · exact id
  unfold answers_matching at h ⊢
  split at h
  · exact h
  · rw [Bool.or_eq_true] at h ⊢
    exact h.imp hdirect hquoted

/-! ## Attribution -/

/-- A direct answer is attributed where in both frames the address pair compared is that of the
IP layer carrying the compared header, and the received pair is the sent one swapped. -/
def Attributed (sent recv : Frame) (key : ReplyKey) (p : ProtoId) : Prop :=
  Carried sent p ∧ Carried recv p ∧ ip_pair recv.buf recv.spans = some ⟨key.dst, key.src, key.v6⟩

/-- A direct answer is attributed exactly where neither frame tunnels the compared header; two
questions one frame answers are then the same, of the same carrying addresses. -/
theorem attributed_iff (sent sent' recv : Frame) (key key' : ReplyKey) (L : Layers) :
    (reply_key sent = some key → direct_answer key recv true = true →
      ∃ p, key.kind.compared = some p
        ∧ (Attributed sent recv key p ↔ Untunnelled sent.protos p ∧ Untunnelled recv.protos p))
    ∧ (∀ p, reply_key sent = some key → reply_key sent' = some key' →
      key.kind.compared = some p → key'.kind.compared = some p →
      direct_answer key recv true = true → direct_answer key' recv true = true →
      Untunnelled sent.protos p → Untunnelled sent'.protos p →
      key.v6 = key'.v6 ∧ (carrier_pair sent p).isSome ∧ carrier_pair sent p = carrier_pair sent' p
        ∧ key.kind.SameQuestion key'.kind)
    ∧ (answers_matching L key recv true = true → answers_matching L key recv false = true) := by
  refine ⟨?_, ?_, answers_unchecked L⟩
  · intro hkey h
    obtain ⟨pair, hpair, hswap, hanswered⟩ := (direct_answer_iff key recv true).1 h
    obtain ⟨p, hp⟩ := hanswered.compared
    rw [swapped_true hswap] at hpair
    refine ⟨p, hp, ?_⟩
    rw [Attributed, carried_iff (ip_pair_of_key hkey hp), carried_iff hpair]
    exact ⟨fun h => ⟨h.1, h.2.1⟩, fun h => ⟨h.1, h.2, hpair⟩⟩
  · intro p hkey hkey' hp hp' h h' hplain hplain'
    obtain ⟨pair, hpair, hswap, hanswered⟩ := (direct_answer_iff key recv true).1 h
    obtain ⟨pair', hpair', hswap', hanswered'⟩ := (direct_answer_iff key' recv true).1 h'
    -- one frame has one pair, so both questions name it
    obtain rfl := Option.some.inj (hpair.symm.trans hpair')
    have hsame := (swapped_true hswap).symm.trans (swapped_true hswap')
    rw [Pair.mk.injEq] at hsame
    have hcarried := carrier_pair_eq (ip_pair_of_key hkey hp) hplain
    have hcarried' := carrier_pair_eq (ip_pair_of_key hkey' hp') hplain'
    refine ⟨hsame.2.2, by rw [hcarried]; rfl, ?_, hanswered.same hanswered' hp hp'⟩
    rw [hcarried, hcarried', hsame.1, hsame.2.1, hsame.2.2]

/-! ## Two probes through one tunnel -/

/-- An IPv4 header without options. -/
def ip_header (total proto src dst : UInt8) : Bytes :=
  [0x45, 0, 0, total, 0, 1, 0, 0, 64, proto, 0, 0, 10, 0, 0, src, 10, 0, 0, dst]

/-- A TCP header without options. -/
def tcp_header (sport dport : UInt8) : Bytes :=
  [0, sport, 0, dport, 0, 0, 0, 0, 0, 0, 0, 0, 0x50, 2, 0, 0, 0, 0, 0, 0]

/-- A frame as the dissector takes it. -/
def Frame.of (buf : Bytes) : Frame := ⟨buf, dissect_spans Layers.core buf .Ipv4⟩

/-- A segment between two hosts. -/
def segment (src dst sport dport : UInt8) : Frame :=
  .of (ip_header 40 6 src dst ++ tcp_header sport dport)

/-- A segment between two hosts, in the tunnel between two others. -/
def tunnelled (osrc odst src dst sport dport : UInt8) : Frame :=
  .of (ip_header 60 4 osrc odst ++ (ip_header 40 6 src dst ++ tcp_header sport dport))

/-- The key of a probe of 10.0.0.4 by 10.0.0.3. -/
def segment_key : ReplyKey := (reply_key (segment 3 4 5 6)).get (by decide +kernel)

theorem segment_attributed :
    ∃ p, segment_key.kind.compared = some p
      ∧ (Attributed (segment 3 4 5 6) (segment 4 3 6 5) segment_key p
        ↔ Untunnelled (segment 3 4 5 6).protos p ∧ Untunnelled (segment 4 3 6 5).protos p) :=
  (attributed_iff (segment 3 4 5 6) (segment 3 4 5 6) (segment 4 3 6 5) segment_key segment_key
    Layers.core).1 (Option.some_get _).symm (by decide +kernel)

/-- The key of a probe of 10.0.0.4 by 10.0.0.3 through the tunnel of 10.0.0.1 and 10.0.0.2. -/
def tunnelled_key : ReplyKey := (reply_key (tunnelled 1 2 3 4 5 6)).get (by decide +kernel)

/-- In the tunnel a segment of 10.0.0.7 answers that probe: its addresses are never compared. -/
theorem stranger_answers_in_tunnel :
    reply_key (tunnelled 1 2 3 4 5 6) = some tunnelled_key
      ∧ direct_answer tunnelled_key (tunnelled 2 1 7 8 6 5) true = true
      ∧ tunnelled_key.kind.compared = some .Tcp
      ∧ ¬ Attributed (tunnelled 1 2 3 4 5 6) (tunnelled 2 1 7 8 6 5) tunnelled_key .Tcp := by
  refine ⟨(Option.some_get _).symm, by decide +kernel, by decide +kernel, ?_⟩
  rintro ⟨⟨i, hi, hcarrier⟩, _⟩
  -- the pair is the outer header's, the ports are behind the inner one
  have houter : ip_at (tunnelled 1 2 3 4 5 6).protos = some 0 := by decide +kernel
  have hinner : carrier_at (tunnelled 1 2 3 4 5 6).protos .Tcp = some 1 := by decide +kernel
  have h0 := Option.some.inj (hi.symm.trans houter)
  have h1 := Option.some.inj (hcarrier.symm.trans hinner)
  omega

end Wiry.Answers
