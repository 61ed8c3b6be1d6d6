import Mathlib.Data.List.Lex
import Mathlib.Data.Char
import StyleAudit.Proofs.Text.Encoding

/-!
# The order of texts and the order of their bytes

UTF-8 keeps the order of characters: of two characters, the one with the smaller code has the
smaller byte where their bytes part (`utf8EncodeChar_append_lt`).  So texts in the order of their
characters are in the order of their bytes (`encode_lt_of_compare`), and names can be sorted
without writing them in bytes first.
-/

namespace StyleAudit.Utf8

/-- Of two numbers the smaller one has the smaller digit in front or, after equal ones, behind. -/
theorem div_lt_or_mod_lt {v w : Nat} (h : v < w) :
    v / 64 < w / 64 ∨ v / 64 = w / 64 ∧ v % 64 < w % 64 := by
  omega

/-- **Of two characters the smaller one has the smaller bytes**, whatever follows them. -/
theorem utf8EncodeChar_append_lt {c d : Char} (h : c < d) (bs cs : List UInt8) :
    String.utf8EncodeChar c ++ bs < String.utf8EncodeChar d ++ cs := by
  have hlt : c.toNat < d.toNat := h
  have hd : d.toNat < 0xD800 ∨ 0xDFFF < d.toNat ∧ d.toNat < 0x110000 := d.valid
  unfold String.utf8EncodeChar
  simp only [Char.toNat_val]
  generalize c.toNat = v at hlt
  generalize d.toNat = w at hlt hd
  -- The digits to the base 64, from the last one on: the bytes part where these do.
  have hlow := div_lt_or_mod_lt hlt
  have hmid := @div_lt_or_mod_lt (v / 64) (w / 64)
  have htop := @div_lt_or_mod_lt (v / 64 / 64) (w / 64 / 64)
  rw [show v / 262144 = v / 64 / 64 / 64 by omega, show w / 262144 = w / 64 / 64 / 64 by omega,
    show v / 4096 = v / 64 / 64 by omega, show w / 4096 = w / 64 / 64 by omega]
  split_ifs <;> simp (disch := omega) only [List.cons_append, List.nil_append,
    List.cons_lt_cons_iff, UInt8.lt_iff_toNat_lt, ← UInt8.toNat_inj, toNat_ofNat_of_lt] <;> omega

/-- **Texts in the order of their characters are in the order of their bytes.** -/
theorem encode_lt_of_compare {t u : Text} (h : compare t u = .lt) : encode t < encode u := by
  rw [encode_eq, encode_eq]
  induction t generalizing u with
  | nil =>
    cases u with
    | nil => cases h
    | cons d u =>
      obtain ⟨b, more, hbytes, -⟩ := headOf_utf8EncodeChar d []
      rw [List.flatMap_nil, List.flatMap_cons, hbytes, List.cons_append]
      exact List.nil_lt_cons _ _
  | cons c t ih =>
    cases u with
    | nil => cases h
    | cons d u =>
      rw [List.flatMap_cons, List.flatMap_cons]
      rw [List.compare_cons_cons, Ordering.then_eq_lt] at h
      rcases h with hcd | ⟨hcd, htu⟩
      · exact utf8EncodeChar_append_lt (compare_lt_iff_lt.mp hcd) _ _
      · rw [Std.compare_eq_iff_eq.mp hcd]
        exact List.append_left_lt (ih htu)

end StyleAudit.Utf8
