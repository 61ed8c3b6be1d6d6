import StyleAudit.Text.Basic

/-!
# Cutting a text at what an expression matches

An expression says what may stand at the front of a text.  It can match there in more than one way:
a number of blanks with another blank behind them also matches one blank less, and of two
alternatives both may match.  So the ways have an order.  As many characters as there are come before
fewer, and what the first alternative matches comes before what the second does (`Expression.rests`).
The first way that leads through the whole expression counts, and the later ones are only tried if an
earlier one does not lead through.

A text is cut from left to right, at the first place where the expression matches, and then on behind
that match.  An expression that could match the empty text would not get on, so texts are cut at
`Divider`s only.  What stands between the matches are the pieces (`Divider.cut`), and there may be
empty ones between two matches and at the ends.

* `Expression.exists_append_of_mem_rests` --- how much of a text an expression matches, and which
  characters;
* `Divider.cut_of_match`, `Divider.cut_of_no_match` --- the two steps of cutting.
-/

namespace StyleAudit.Text

/-! ## Expressions -/

/-- What may stand at the front of a text. -/
inductive Expression where
  /-- A character that the predicate accepts. -/
  | one (p : Char → Bool)
  /-- Any number of characters that the predicate accepts. -/
  | many (p : Char → Bool)
  /-- The one and behind it the other. -/
  | both (e f : Expression)
  /-- The one or else the other. -/
  | either (e f : Expression)

/-- What is left behind any number of characters that `p` accepts, as many as there are first. -/
def behindRun (p : Char → Bool) : Text → List Text
  | [] => [[]]
  | c :: t => if p c then behindRun p t ++ [c :: t] else [c :: t]

namespace Expression

/-- What is left of a text behind what the expression matches at its front, for each way in which it
does, in the order in which they are tried. -/
def rests : Expression → Text → List Text
  | one _, [] => []
  | one p, c :: t => if p c then [t] else []
  | many p, t => behindRun p t
  | both e f, t => (e.rests t).flatMap fun rest => f.rests rest
  | either e f, t => e.rests t ++ f.rests t

/-- The least number of characters that the expression matches. -/
def least : Expression → Nat
  | one _ => 1
  | many _ => 0
  | both e f => e.least + f.least
  | either e f => min e.least f.least

/-- Whether the character can stand in what the expression matches. -/
def admits : Expression → Char → Bool
  | one p, c => p c
  | many p, c => p c
  | both e f, c => e.admits c || f.admits c
  | either e f, c => e.admits c || f.admits c

end Expression

/-- A number of characters may be none at all. -/
theorem mem_behindRun (p : Char → Bool) (t : Text) : t ∈ behindRun p t := by
  cases t with
  | nil => exact List.mem_singleton_self []
  | cons c t =>
    rw [behindRun]
    split
    · exact List.mem_append_right _ (List.mem_singleton_self _)
    · exact List.mem_singleton_self _

theorem exists_append_of_mem_behindRun {p : Char → Bool} {t rest : Text}
    (h : rest ∈ behindRun p t) : ∃ u, t = u ++ rest ∧ ∀ c ∈ u, p c = true := by
  induction t with
  | nil =>
    obtain rfl := List.mem_singleton.mp h
    exact ⟨[], rfl, fun _ hc => absurd hc List.not_mem_nil⟩
  | cons c t ih =>
    have hnone : ∃ u, c :: t = u ++ c :: t ∧ ∀ c ∈ u, p c = true :=
      ⟨[], rfl, fun _ hc => absurd hc List.not_mem_nil⟩
    rw [behindRun] at h
    split at h
    next hc =>
      rcases List.mem_append.mp h with h | h
      · obtain ⟨u, rfl, hu⟩ := ih h
        exact ⟨c :: u, rfl, List.forall_mem_cons.mpr ⟨hc, hu⟩⟩
      · rwa [List.mem_singleton.mp h]
    next => rwa [List.mem_singleton.mp h]

/-- **What an expression matches** is at least as long as it has to be, and it is made of characters
of the expression. -/
theorem Expression.exists_append_of_mem_rests {e : Expression} {t rest : Text}
    (h : rest ∈ e.rests t) :
    ∃ u, t = u ++ rest ∧ e.least ≤ u.length ∧ ∀ c ∈ u, e.admits c = true := by
  induction e generalizing t rest with
  | one p =>
    cases t with
    | nil => cases h
    | cons c t =>
      rw [rests] at h
      split at h
      next hc =>
        obtain rfl := List.mem_singleton.mp h
        exact ⟨[c], rfl, Nat.le_refl 1, List.forall_mem_singleton.mpr hc⟩
      next => cases h
  | many p =>
    obtain ⟨u, rfl, hu⟩ := exists_append_of_mem_behindRun h
    exact ⟨u, rfl, Nat.zero_le _, hu⟩
  | both e f ihe ihf =>
    obtain ⟨between, hbetween, hrest⟩ := List.mem_flatMap.mp h
    obtain ⟨u, rfl, hulength, hu⟩ := ihe hbetween
    obtain ⟨v, rfl, hvlength, hv⟩ := ihf hrest
    refine ⟨u ++ v, (List.append_assoc ..).symm, ?_, List.forall_mem_append.mpr ⟨?_, ?_⟩⟩
    · rw [List.length_append, least]
      exact Nat.add_le_add hulength hvlength
    · exact fun c hc => Bool.or_eq_true_iff.mpr (.inl (hu c hc))
    · exact fun c hc => Bool.or_eq_true_iff.mpr (.inr (hv c hc))
  | either e f ihe ihf =>
    rcases List.mem_append.mp h with h | h
    · obtain ⟨u, rfl, hlength, hu⟩ := ihe h
      exact ⟨u, rfl, Nat.le_trans (Nat.min_le_left _ _) hlength,
        fun c hc => Bool.or_eq_true_iff.mpr (.inl (hu c hc))⟩
    · obtain ⟨u, rfl, hlength, hu⟩ := ihf h
      exact ⟨u, rfl, Nat.le_trans (Nat.min_le_right _ _) hlength,
        fun c hc => Bool.or_eq_true_iff.mpr (.inr (hu c hc))⟩

/-! ## Cutting -/

/-- An expression that does not match the empty text. -/
structure Divider where
  expression : Expression
  least_pos : 0 < expression.least := by decide

namespace Divider

variable (d : Divider)

/-- What is left of a text behind what the divider matches at its front, if it does. -/
def match? (t : Text) : Option Text := (d.expression.rests t).head?

theorem length_lt_of_match? {d : Divider} {t rest : Text} (h : d.match? t = some rest) :
    rest.length < t.length := by
  obtain ⟨u, rfl, hlength, -⟩ := Expression.exists_append_of_mem_rests (List.mem_of_head? h)
  have hpos := d.least_pos
  rw [List.length_append]
  omega

/-- The pieces between what the divider matches, in order. -/
def cut : Text → List Text
  | [] => [[]]
  | c :: t =>
    match h : d.match? (c :: t) with
    | some rest =>
      have : rest.length < (c :: t).length := length_lt_of_match? h
      [] :: cut rest
    | none => (cut t).modifyHead (c :: ·)
termination_by t => t.length
decreasing_by
  · assumption
  · exact Nat.lt_succ_self t.length

theorem cut_nil : d.cut [] = [[]] := by rw [cut]

variable {d} {c : Char} {t rest : Text}

/-- Where the divider matches, a piece ends. -/
theorem cut_of_match (h : d.match? (c :: t) = some rest) : d.cut (c :: t) = [] :: d.cut rest := by
  rw [cut]
  split
  next rest' h' =>
    obtain rfl : rest' = rest := Option.some.inj (h'.symm.trans h)
    rfl
  next h' => cases h'.symm.trans h

/-- Where it does not, the piece goes on. -/
theorem cut_of_no_match (h : d.match? (c :: t) = none) :
    d.cut (c :: t) = (d.cut t).modifyHead (c :: ·) := by
  rw [cut]
  split
  next rest' h' => cases h'.symm.trans h
  next => rfl

end Divider
end StyleAudit.Text
