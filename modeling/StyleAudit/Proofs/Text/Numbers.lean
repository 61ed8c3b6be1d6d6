import StyleAudit.Proofs.Text.Trim

/-!
# Numbers in a text

A number is written with nothing but digits, and with at least one.  So it ends where the digits do
if no digit stands behind it (`takeWhile_number`), and its digits tell it (`numberOf_number`).
-/

namespace StyleAudit.Text

theorem isDigit_of_mem_number (n : Nat) : ∀ c ∈ (toString n).toList, c.isDigit = true := by
  rw [Nat.toString_eq_ofList_toDigits, String.toList_ofList]
  exact fun c hc => Nat.isDigit_of_mem_toDigits (by decide) (by decide) hc

theorem notMem_number {c : Char} (h : c.isDigit = false) (n : Nat) : c ∉ (toString n).toList :=
  fun hmem => Bool.noConfusion (h.symm.trans (isDigit_of_mem_number n c hmem))

theorem exists_number_eq_cons (n : Nat) :
    ∃ c rest, (toString n).toList = c :: rest ∧ c.isDigit = true := by
  have hne : (toString n).toList ≠ [] := by
    rw [Nat.toString_eq_ofList_toDigits, String.toList_ofList]
    exact Nat.toDigits_ne_nil
  obtain ⟨c, rest, h⟩ := List.exists_cons_of_ne_nil hne
  exact ⟨c, rest, h, isDigit_of_mem_number n c (h ▸ List.mem_cons_self)⟩

/-- A number ends where its digits do. -/
theorem takeWhile_number (n : Nat) {t : Text} (h : ∀ c ∈ t.head?, c.isDigit = false) :
    ((toString n).toList ++ t).takeWhile Char.isDigit = (toString n).toList := by
  rw [takeWhile_append_of_head? h]
  exact List.takeWhile_eq_self_iff.mpr (isDigit_of_mem_number n)

/-- The number that some digits are. -/
def numberOf (t : Text) : Nat := Nat.ofDigitChars 10 t 0

/-- **The digits of a number tell it.** -/
theorem numberOf_number (n : Nat) : numberOf (toString n).toList = n := by
  rw [Nat.toString_eq_ofList_toDigits, String.toList_ofList, numberOf,
    Nat.ofDigitChars_ten_toDigits]

end StyleAudit.Text
