import StyleAudit.Proofs.Css.Stripping
import StyleAudit.Proofs.Text.Expression

/-!
# What stands between fragments

A selector is cut into fragments at commas and combinators, with the blanks around them, and at
blanks alone (`separator`).  The two alternatives overlap, since blanks in front of a combinator are
matched by both, and in the first the blanks have to be given back one by one where no combinator
follows.  So where exactly a separator ends, and how many empty pieces there are, takes some thought.

For the fragments none of it matters.  It is enough that a separator matches wherever a blank, a
comma or a combinator stands, and that it matches no other characters (`Separates`).  Then, whichever
way counts, the pieces are the stretches between those characters and some that are empty
(`Separates.filter_cut`).  In particular a piece has no blanks at its ends to trim.

* `separates_separator` --- both hold of the separator of fragments;
* `fragments_eq_pieces` --- the fragments are the pieces, trimmed, without the empty ones;
* `cutsWithoutLoss_fragments` --- so the fragments are the text without what separates them.
-/

namespace StyleAudit.Css

open Text (Expression Divider)

/-! ## Dividers that match runs -/

/-- The divider matches wherever a character stands that `p` accepts, and it matches no other
characters. -/
structure Separates (d : Divider) (p : Char → Bool) : Prop where
  mem_rests : ∀ c t, p c = true → t ∈ d.expression.rests (c :: t)
  of_admits : ∀ c, d.expression.admits c = true → p c = true

namespace Separates

variable {d : Divider} {p : Char → Bool}

/-- A match is a run of characters that separate. -/
theorem exists_run (h : Separates d p) {c : Char} {t rest : Text}
    (hmatch : d.match? (c :: t) = some rest) :
    ∃ u, t = u ++ rest ∧ ∀ x ∈ c :: u, p x = true := by
  obtain ⟨u, hsplit, hlength, hu⟩ :=
    Expression.exists_append_of_mem_rests (List.mem_of_head? hmatch)
  obtain ⟨x, u, rfl⟩ := List.exists_cons_of_length_pos (Nat.lt_of_lt_of_le d.least_pos hlength)
  obtain ⟨rfl, rfl⟩ := List.cons.inj hsplit
  exact ⟨u, rfl, fun x hx => h.of_admits x (hu x hx)⟩

/-- There is a match exactly where a character separates. -/
theorem match?_eq_none_iff (h : Separates d p) {c : Char} {t : Text} :
    d.match? (c :: t) = none ↔ p c = false := by
  constructor
  · intro hnone
    rw [Divider.match?, List.head?_eq_none_iff] at hnone
    rw [Bool.eq_false_iff]
    intro hc
    have hmem := h.mem_rests c t hc
    rw [hnone] at hmem
    cases hmem
  · intro hc
    cases hmatch : d.match? (c :: t) with
    | none => rfl
    | some rest =>
      obtain ⟨u, -, hrun⟩ := h.exists_run hmatch
      exact absurd (hc.symm.trans (hrun c List.mem_cons_self)) Bool.false_ne_true

/-- Cutting at the divider differs from cutting at each character that separates only in the pieces
that are empty, and not in the first piece. -/
theorem exists_cut_eq (h : Separates d p) (t : Text) :
    ∃ piece ps qs, d.cut t = piece :: ps ∧ t.splitOnP p = piece :: qs ∧
      ps.filter (· ≠ []) = qs.filter (· ≠ []) := by
  fun_induction d.cut t with
  | case1 => exact ⟨[], [], [], rfl, rfl, rfl⟩
  | case2 c t rest hmatch _ ih =>
    obtain ⟨u, rfl, hrun⟩ := h.exists_run hmatch
    obtain ⟨hc, hu⟩ := List.forall_mem_cons.mp hrun
    refine ⟨[], d.cut rest, (u ++ rest).splitOnP p, rfl, ?_, ?_⟩
    · rw [List.splitOnP_cons_eq_if_modifyHead, if_pos hc]
    · obtain ⟨piece, ps, qs, hcut, hsplit, hfilter⟩ := ih
      rw [← stretches_eq_splitOnP, stretches_append_of_forall hu, stretches_eq_splitOnP, hcut,
        hsplit, List.filter_cons, List.filter_cons, hfilter]
  | case3 c t hmatch ih =>
    obtain ⟨piece, ps, qs, hcut, hsplit, hfilter⟩ := ih
    have hc := h.match?_eq_none_iff.mp hmatch
    refine ⟨c :: piece, ps, qs, by rw [hcut, List.modifyHead_cons], ?_, hfilter⟩
    rw [List.splitOnP_cons_eq_if_modifyHead, if_neg (Bool.eq_false_iff.mp hc), hsplit,
      List.modifyHead_cons]

/-- **The pieces that are not empty** are the stretches between the characters that separate. -/
theorem filter_cut (h : Separates d p) (t : Text) : (d.cut t).filter (· ≠ []) = stretches p t := by
  obtain ⟨piece, ps, qs, hcut, hsplit, hfilter⟩ := h.exists_cut_eq t
  rw [stretches_eq_splitOnP, hcut, hsplit, List.filter_cons, List.filter_cons, hfilter]

/-- No piece holds a character that separates. -/
theorem not_of_mem_cut (h : Separates d p) {t piece : Text} (hpiece : piece ∈ d.cut t) :
    ∀ c ∈ piece, p c = false := by
  intro c hc
  have hmem : piece ∈ (d.cut t).filter (· ≠ []) :=
    List.mem_filter.mpr ⟨hpiece, decide_eq_true (List.ne_nil_of_mem hc)⟩
  rw [h.filter_cut] at hmem
  exact not_of_mem_of_mem_stretches hmem hc

end Separates

/-! ## The separator of fragments -/

/-- Commas and the combinators that are written. -/
def combines (c : Char) : Bool := c == ',' || c == '>' || c == '+' || c == '~'

/-- What stands between fragments: a comma or a combinator with the blanks around it, or blanks
alone. -/
def separator : Divider where
  expression := .either (.both (.many isBlank) (.both (.one combines) (.many isBlank)))
    (.both (.one isBlank) (.many isBlank))

theorem separatesFragments_eq (c : Char) :
    separatesFragments c = (isBlank c || combines c) := by
  simp only [separatesFragments, combines, Bool.or_assoc]

/-- Every character between fragments is a separator by itself, if not the one that counts. -/
theorem separates_separator : Separates separator separatesFragments where
  mem_rests := by
    intro c t hc
    have hbehind : t ∈ Text.behindRun isBlank t := Text.mem_behindRun isBlank t
    rw [separatesFragments_eq, Bool.or_eq_true_iff] at hc
    rcases hc with hc | hc
    · refine List.mem_append_right _ (List.mem_flatMap.mpr ⟨t, ?_, hbehind⟩)
      rw [Expression.rests, if_pos hc]
      exact List.mem_singleton_self t
    · refine List.mem_append_left _
        (List.mem_flatMap.mpr ⟨c :: t, Text.mem_behindRun isBlank (c :: t), ?_⟩)
      refine List.mem_flatMap.mpr ⟨t, ?_, hbehind⟩
      rw [Expression.rests, if_pos hc]
      exact List.mem_singleton_self t
  of_admits := by
    intro c hc
    rw [separatesFragments_eq]
    simp only [separator, Expression.admits] at hc
    grind

/-- **The fragments are the pieces between separators**, trimmed, and without the empty ones. -/
theorem fragments_eq_pieces (selector : Text) :
    fragments selector = ((separator.cut selector).map Text.trim).filter (· ≠ []) := by
  have htrim : ∀ piece ∈ separator.cut selector, Text.trim piece = piece := by
    intro piece hpiece
    have hblank : ∀ c ∈ piece, isBlank c = false := by
      intro c hc
      have hnot := separates_separator.not_of_mem_cut hpiece c hc
      rw [separatesFragments_eq, Bool.or_eq_false_iff] at hnot
      exact hnot.1
    exact Text.trim_eq_self (fun c hc => hblank c (List.mem_of_mem_head? hc))
      fun c hc => hblank c (List.mem_of_mem_getLast? hc)
  rw [List.map_congr_left htrim, List.map_id'', separates_separator.filter_cut, fragments]
  exact fun _ => rfl

example : separator.cut " .a .b>.c ,, p".toList =
    ["", ".a", ".b", ".c", "", "p"].map String.toList := by decide +kernel

/-! ## Nothing but separators is lost -/

/-- How a selector is cut into fragments. -/
structure CutsWithoutLoss (selector : Text) (fs : List Text) : Prop where
  /-- They are the pieces between the separators, trimmed, and without the empty ones. -/
  eq_pieces : fs = ((separator.cut selector).map Text.trim).filter (· ≠ [])
  ne_nil : ∀ f ∈ fs, f ≠ []
  not_isBlank : ∀ f ∈ fs, ∀ c ∈ f, isBlank c = false
  notMem : ∀ f ∈ fs, ',' ∉ f ∧ '>' ∉ f ∧ '+' ∉ f ∧ '~' ∉ f
  /-- Put together in order, they are the selector without the blanks, commas and combinators. -/
  flatten_eq : fs.flatten = selector.filter fun c =>
    !(isBlank c || c == ',' || c == '>' || c == '+' || c == '~')

/-- **Cutting a selector into fragments loses nothing but what separates them.** -/
theorem cutsWithoutLoss_fragments (selector : Text) :
    CutsWithoutLoss selector (fragments selector) := by
  have hnot : ∀ f ∈ fragments selector, ∀ c ∈ f, separatesFragments c = false :=
    fun f hf c hc => not_of_mem_of_mem_stretches hf hc
  have hmem : ∀ c, separatesFragments c = true → ∀ f ∈ fragments selector, c ∉ f :=
    fun c hc f hf hcf => Bool.false_ne_true ((hnot f hf c hcf).symm.trans hc)
  exact {
    eq_pieces := fragments_eq_pieces selector
    ne_nil := fun _ => ne_nil_of_mem_stretches
    not_isBlank := fun f hf c hc => by
      have hc := hnot f hf c hc
      rw [separatesFragments_eq, Bool.or_eq_false_iff] at hc
      exact hc.1
    notMem := fun f hf => ⟨hmem _ (by decide) f hf, hmem _ (by decide) f hf,
      hmem _ (by decide) f hf, hmem _ (by decide) f hf⟩
    flatten_eq := fragments_flatten selector }

end StyleAudit.Css
