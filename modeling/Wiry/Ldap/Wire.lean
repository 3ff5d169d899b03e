/-
LDAP filters on the wire: they read back as the same tree, in the octets of RFC 4511, unless an
extensible match is among them.
-/
import Wiry.Ldap.Reading

set_option autoImplicit false

namespace Wiry.Ldap

open Packet (Bytes)
open Ber (MAX_BER_DEPTH)
open Asn1

/-- A filter survives the wire, in the octets of RFC 4511, exactly when no extensible match is
among it. -/
theorem filter_survives_iff (long : ℕ) (f : Filter) (b : Bytes) (hlong : long ≤ 126)
    (hwhole : f.whole = true) (hnesting : f.nesting ≤ MAX_BER_DEPTH)
    (hidentifiers : f.identifiers ≤ Ber.MAX_BER_ELEMENTS) (hbuild : f.build long = .ok b)
    (hfit : b.length < 2 ^ 63) :
    (LDAP_Filter b = .ok (f, []) ∧ Encodes f b) ↔ f.plain = true := by
  refine ⟨fun h => (filter_encodes_iff hlong f hwhole hbuild hfit).2.1 h.2, fun hplain => ⟨?_,
    (filter_encodes_iff hlong f hwhole hbuild hfit).2.2 hplain⟩⟩
  have hread := (filter_reads f hwhole hplain hbuild).2 31 hnesting []
  rw [List.append_nil] at hread
  have hpos := nesting_pos f
  exact LDAP_Filter_of_yields hread (by omega) hidentifiers

/-- `(&(!(a=b))(c=*))`. -/
theorem filter_survives_sample :
    let f : Filter := .And [.Not (.EqualityMatch [0x61] [0x62]), .Present [0x63]]
    let b : Bytes := [0xA0, 13, 0xA2, 8, 0xA3, 6, 0x04, 1, 0x61, 0x04, 1, 0x62, 0x87, 1, 0x63]
    (LDAP_Filter b = .ok (f, []) ∧ Encodes f b) ↔ f.plain = true := by
  intro f b
  exact filter_survives_iff 0 f b (by decide) rfl (by decide) (by decide) rfl (by decide)

/-- `(c:=x)`: its type comes back as its matching rule, and its octets are not of the grammar. -/
theorem extensible_type_lost :
    ∃ (f : Filter) (b : Bytes), f.whole = true ∧ f.nesting ≤ MAX_BER_DEPTH ∧
      f.identifiers ≤ Ber.MAX_BER_ELEMENTS ∧ f.build 0 = .ok b ∧
      LDAP_Filter b = .ok (.ExtensibleMatch (some [0x63]) none [0x78] false, []) ∧
      f = .ExtensibleMatch none (some [0x63]) [0x78] false ∧ ¬ Encodes f b := by
  have hfalse : Ber.int_octets 0 = [0] := by
    unfold Ber.int_octets
    rfl
  have hbuild : (Filter.ExtensibleMatch none (some [0x63]) [0x78] false).build 0
      = .ok [0xA9, 9, 0x81, 1, 0x63, 0x82, 1, 0x78, 0x84, 1, 0] := by
    unfold Filter.build enc_boolean
    rw [if_neg Bool.false_ne_true, hfalse]
    rfl
  exact ⟨_, _, rfl, by decide, by decide, hbuild, rfl, rfl,
    extensible_not_encoded (Nat.zero_le _) (by decide) hbuild⟩

end Wiry.Ldap
