import StyleAudit.Extract.Animations
import StyleAudit.Extract.Media
import StyleAudit.Proofs.Extract.FontWalk

/-!
# The lines of failures inside blocks

Three questions read the inside of a block as a text of its own: `mediaQueries` and `animations`
that of the at-rules they are about, and `fonts` that of every block it reaches.  The issue at which
they stop has its line from that reading, and the failure keeps it whatever it is wrapped in
(`line?_innermost`).

Where the fault shows is a `Point` of the stylesheet: the text up to the inside of the block,
`outer`, and the inside up to the fault, `inner`.  Each question has its point, found without asking
it (`innerPoint?`, `fontsPoint?`): at the top level, or else in the first of the blocks in question
that has a fault.  **The line of a failure is that of the point within the block**, and what it
lacks to the line in the stylesheet are the line ends in `outer` (`inner_failure_line`).  So it is
the line in the stylesheet exactly if no line ends in front of the inside of the block, and in
general it is not (`exists_inner_failure_line_ne`).  The validation adds what lacks
(`parse_failure_line`).
-/

namespace StyleAudit

/-- Wrapping keeps the line. -/
theorem Failure.line?_innermost (e : Failure) : e.innermost.line? = e.line? := by
  induction e with
  | nested context source ih => exact ih
  | _ => rfl

namespace Extract

open Css

/-! ## Texts inside a text -/

/-- In the text, `inner` stands behind `outer`, and that is nothing or ends in a brace. -/
structure StandsBehind (t outer inner : Text) : Prop where
  prefix_text : outer ++ inner <+: t
  brace : outer = [] ∨ outer.getLast? = some '\x7b'

namespace StandsBehind

variable {t outer inner : Text}

theorem refl (t : Text) : StandsBehind t [] t := ⟨List.prefix_rfl, .inl rfl⟩

theorem trans {outer' inner' : Text} (h : StandsBehind t outer inner)
    (h' : StandsBehind inner outer' inner') : StandsBehind t (outer ++ outer') inner' where
  prefix_text := by
    rw [List.append_assoc]
    exact ((List.prefix_append_right_inj outer).mpr h'.prefix_text).trans h.prefix_text
  brace := by
    rcases h'.brace with rfl | hlast
    · rw [List.append_nil]
      exact h.brace
    · rw [List.getLast?_append, hlast]
      exact .inr rfl

/-- No line end lies across the seam. -/
theorem lineEnds_append (h : StandsBehind t outer inner) :
    lineEnds (outer ++ inner) = lineEnds outer + lineEnds inner := by
  rcases h.brace with rfl | hlast
  · rw [List.nil_append, lineEnds, Nat.zero_add]
  · exact Css.lineEnds_append (by rw [hlast]; decide)

end StandsBehind

/-- What stands in a text in front of its last lexemes. -/
def frontOf (t : Text) (rest : List Lexeme) : Text :=
  t.take (t.length - (Lexeme.sourceOf rest).length)

theorem frontOf_eq {t front : Text} {rest : List Lexeme} (h : front ++ Lexeme.sourceOf rest = t) :
    frontOf t rest = front := by
  rw [← h, frontOf, List.length_append, Nat.add_sub_cancel, List.take_left]

/-- What stands in front of the inside of the block of the rule or item that begins at the start. -/
def outerAt (nested : Bool) (t : Text) (start : List Lexeme) : Text :=
  ((insideBlock? nested start).map (frontOf t)).getD []

theorem standsBehind_outerAt {nested : Bool} {t : Text} {l : Lexeme} {ls block : List Lexeme}
    (hs : l :: ls <:+ lexemes t) (h : insideBlock? nested (l :: ls) = some block) :
    StandsBehind t (outerAt nested t (l :: ls)) (blockAhead block).1 := by
  obtain ⟨e, hbrace, hopens⟩ := exists_brace_of_insideBlock? h
  obtain ⟨outer, houter, hlast, -⟩ := exists_front_of_opensBlock (hbrace.trans hs) hopens
  have hprefix := (List.prefix_append_right_inj outer).mpr <| blockAhead_prefix block
  rw [outerAt, h, Option.map_some, Option.getD_some, frontOf_eq houter]
  exact ⟨houter ▸ hprefix, .inr hlast⟩

/-- **The inside of the block of a rule stands behind its brace.** -/
theorem standsBehind_ruleAt {t body : Text} {start : List Lexeme}
    (hstart : start ∈ ruleStarts (endPlace t) true (lexemes t))
    (hbody : (ruleAt (endPlace t) start).body? = some body) :
    StandsBehind t (outerAt false t start) body := by
  obtain ⟨hne, hsuffix⟩ := ruleStarts_suffix hstart
  obtain ⟨l, ls, rfl⟩ := List.exists_cons_of_ne_nil hne
  obtain ⟨block, hblock, rfl⟩ := body_ruleAt hbody
  exact standsBehind_outerAt hsuffix hblock

/-- **The inside of the block of an item stands behind its brace.** -/
theorem standsBehind_itemAt {t body : Text} {start : List Lexeme}
    (hstart : start ∈ itemStarts (endPlace t) (lexemes t))
    (hbody : (itemAt (endPlace t) start).body? = some body) :
    StandsBehind t (outerAt true t start) body := by
  obtain ⟨hne, hsuffix⟩ := itemStarts_suffix hstart
  obtain ⟨l, ls, rfl⟩ := List.exists_cons_of_ne_nil hne
  obtain ⟨block, hblock, rfl⟩ := body_itemAt hbody
  exact standsBehind_outerAt hsuffix hblock

/-! ### Along an address -/

/-- What stands in front of the block that is reached by the address from a block. -/
def blockOuter : List Nat → Text → Text
  | [], _ => []
  | i :: address, t =>
    match (itemStarts (endPlace t) (lexemes t))[i]? with
    | none => []
    | some start =>
      outerAt true t start ++ blockOuter address ((itemAt (endPlace t) start).body?.getD [])

/-- What stands in front of the block that is reached by the address from a stylesheet. -/
def sheetOuter : List Nat → Text → Text
  | [], _ => []
  | i :: address, t =>
    match (ruleStarts (endPlace t) true (lexemes t))[i]? with
    | none => []
    | some start =>
      outerAt false t start ++
        match ruleAt (endPlace t) start with
        | .qualified rule => blockOuter address rule.body
        | .atRule rule => sheetOuter address (rule.body.getD [])
        | .error _ => []

theorem exists_ruleStart {t : Text} {i : Nat} {rule : Rule}
    (h : (parseStylesheet t)[i]? = some rule) :
    ∃ start, (ruleStarts (endPlace t) true (lexemes t))[i]? = some start ∧
      ruleAt (endPlace t) start = rule := by
  rwa [parseStylesheet, rulesFrom_eq_map, List.getElem?_map, Option.map_eq_some_iff] at h

theorem exists_itemStart {t : Text} {i : Nat} {item : Item}
    (h : (parseBlock t)[i]? = some item) :
    ∃ start, (itemStarts (endPlace t) (lexemes t))[i]? = some start ∧
      itemAt (endPlace t) start = item := by
  rwa [parseBlock, itemsFrom_eq_map, List.getElem?_map, Option.map_eq_some_iff] at h

/-- A block that is reached from a block stands in it.  The way is followed brace by brace. -/
theorem ReachedInBlock.standsBehind {t : Text} {b : Block} (h : ReachedInBlock t b) :
    StandsBehind t (blockOuter b.address t) b.body := by
  induction h with
  | here body => exact .refl body
  | inside hitem hinner _ ih =>
    obtain ⟨start, hstart, rfl⟩ := exists_itemStart hitem
    rw [Block.under, blockOuter, hstart]
    simp only [hinner, Option.getD_some]
    exact (standsBehind_itemAt (List.mem_of_getElem? hstart) hinner).trans ih

/-- **A block that is reached from a stylesheet stands in it.** -/
theorem ReachedInSheet.standsBehind {t : Text} {b : Block} (h : ReachedInSheet t b) :
    StandsBehind t (sheetOuter b.address t) b.body := by
  induction h with
  | rule hrule h =>
    obtain ⟨start, hstart, hat⟩ := exists_ruleStart hrule
    rw [Block.under, sheetOuter, hstart]
    simp only [hat]
    exact (standsBehind_ruleAt (List.mem_of_getElem? hstart) (by rw [hat]; rfl)).trans
      h.standsBehind
  | atRule hrule hinner _ ih =>
    obtain ⟨start, hstart, hat⟩ := exists_ruleStart hrule
    rw [Block.under, sheetOuter, hstart]
    simp only [hat, hinner, Option.getD_some]
    exact (standsBehind_ruleAt (List.mem_of_getElem? hstart) (by rw [hat]; exact hinner)).trans ih

/-! ## Points where faults show -/

/-- A point of a text, in a part of it that is read as a text of its own. -/
structure Point where
  /-- The text in front of that part. -/
  outer : Text
  /-- The part up to the point. -/
  inner : Text
  deriving DecidableEq, Repr

namespace Point

/-- The point as a point of the text around, in which `outer` stands in front. -/
def within (outer : Text) (p : Point) : Point := ⟨outer ++ p.outer, p.inner⟩

/-- The line of the point within the part that is read. -/
def innerLine (p : Point) : Nat := 1 + lineEnds p.inner

/-- The line of the point within the whole text. -/
def line (p : Point) : Nat := 1 + lineEnds (p.outer ++ p.inner)

end Point

/-- The issue is found at the point of the text, and has its line from the part that was read. -/
structure FoundAt (t : Text) (issue : Issue) (p : Point) : Prop where
  stands : StandsBehind t p.outer p.inner
  line_eq : issue.line = p.innerLine

/-- The point of the first fault at the top level of a stylesheet. -/
def sheetPoint? (t : Text) : Option Point := (sheetFault? t).map fun rest => ⟨[], frontOf t rest⟩

/-- The point of the first fault in a block. -/
def blockPoint? (t : Text) : Option Point := (blockFault? t).map fun rest => ⟨[], frontOf t rest⟩

/-- The point in the inside of the at-rule that begins at the start, if it is one of those in
question. -/
def innerPointAt? (selects : AtRule → Bool) (t : Text) (start : List Lexeme) : Option Point :=
  match ruleAt (endPlace t) start with
  | .atRule rule =>
    if selects rule then (rule.body.bind sheetPoint?).map (.within (outerAt false t start))
    else none
  | _ => none

/-- Where a question fails that is about the insides of some at-rules. -/
def innerPoint? (selects : AtRule → Bool) (t : Text) : Option Point :=
  (sheetPoint? t).or
    ((ruleStarts (endPlace t) true (lexemes t)).findSome? (innerPointAt? selects t))

/-- Where the question about fonts fails. -/
def fontsPoint? (t : Text) : Option Point :=
  (sheetPoint? t).or
    ((sheetBlocks t).findSome? fun b => (blockPoint? b.body).map (.within (sheetOuter b.address t)))

/-! ### Issues have these points -/

section Rel

variable {α β γ : Type} {r : α → β → Prop}

theorem rel_or {a a' : Option α} {b b' : Option β} (h : Option.Rel r a b)
    (h' : Option.Rel r a' b') : Option.Rel r (a.or a') (b.or b') := by
  cases h with
  | none => exact h'
  | some h => exact .some h

theorem rel_findSome? {f : γ → Option α} {g : γ → Option β} {l : List γ}
    (h : ∀ c ∈ l, Option.Rel r (f c) (g c)) :
    Option.Rel r (l.findSome? f) (l.findSome? g) := by
  induction l with
  | nil => exact .none
  | cons c l ih =>
    obtain ⟨hc, hl⟩ := List.forall_mem_cons.mp h
    rw [List.findSome?_cons, List.findSome?_cons]
    generalize f c = a, g c = b at hc
    cases hc with
    | none => exact ih hl
    | some hab => exact .some hab

end Rel

theorem rel_of_showsAt {t : Text} {issue? : Option Issue} {point? : Option (List Lexeme)}
    (h : ShowsAt t issue? point?) :
    Option.Rel (FoundAt t) issue? (point?.map fun rest => ⟨[], frontOf t rest⟩) := by
  cases issue? with
  | none =>
    cases h
    exact .none
  | some issue =>
    obtain ⟨rest, front, rfl, hfront, hline⟩ := line_of_showsAt h
    rw [Option.map_some, frontOf_eq hfront]
    exact .some ⟨⟨⟨_, hfront⟩, .inl rfl⟩, hline⟩

theorem rel_sheetPoint? (t : Text) :
    Option.Rel (FoundAt t) (Rule.firstIssue? (parseStylesheet t)) (sheetPoint? t) :=
  rel_of_showsAt (showsAt_parseStylesheet t)

theorem rel_blockPoint? (t : Text) :
    Option.Rel (FoundAt t) (Item.firstIssue? (parseBlock t)) (blockPoint? t) :=
  rel_of_showsAt (showsAt_parseBlock t)

/-- What is found in a part of a text is found in the text. -/
theorem rel_within {t outer body : Text} (h : StandsBehind t outer body) {issue? : Option Issue}
    {point? : Option Point} (hrel : Option.Rel (FoundAt body) issue? point?) :
    Option.Rel (FoundAt t) issue? (point?.map (.within outer)) := by
  cases hrel with
  | none => exact .none
  | some hfound => exact .some ⟨h.trans hfound.stands, hfound.line_eq⟩

/-- The first issue inside the rule, if it is one of the at-rules in question. -/
def innerIssue? (selects : AtRule → Bool) : Rule → Option Issue
  | .atRule rule => if selects rule then Rule.firstIssue? rule.rules else none
  | _ => none

theorem rel_innerPointAt? (selects : AtRule → Bool) {t : Text} {start : List Lexeme}
    (hstart : start ∈ ruleStarts (endPlace t) true (lexemes t)) :
    Option.Rel (FoundAt t) (innerIssue? selects (ruleAt (endPlace t) start))
      (innerPointAt? selects t start) := by
  unfold innerPointAt?
  cases hrule : ruleAt (endPlace t) start with
  | qualified rule => exact .none
  | error issue => exact .none
  | atRule rule =>
    simp only [innerIssue?, AtRule.rules]
    split
    · cases hbody : rule.body with
      | none => exact .none
      | some body =>
        have hstands : StandsBehind t (outerAt false t start) body :=
          standsBehind_ruleAt hstart (by rw [hrule]; exact hbody)
        exact rel_within hstands (rel_sheetPoint? body)
    · exact .none

/-- The first issue at the top level, or else in the insides of the at-rules in question, has the
point. -/
theorem rel_innerPoint? (selects : AtRule → Bool) (t : Text) :
    Option.Rel (FoundAt t)
      ((Rule.firstIssue? (parseStylesheet t)).or
        ((parseStylesheet t).findSome? (innerIssue? selects)))
      (innerPoint? selects t) := by
  refine rel_or (rel_sheetPoint? t) ?_
  rw [parseStylesheet, rulesFrom_eq_map, List.findSome?_map]
  exact rel_findSome? fun start => rel_innerPointAt? selects

/-- The first issue at the top level, or else in the blocks that are reached, has the point. -/
theorem rel_fontsPoint? (t : Text) :
    Option.Rel (FoundAt t)
      ((Rule.firstIssue? (parseStylesheet t)).or ((sheetBlocks t).findSome? Block.issue?))
      (fontsPoint? t) :=
  rel_or (rel_sheetPoint? t) (rel_findSome? fun b hb =>
    rel_within (mem_sheetBlocks_iff.mp hb).standsBehind (rel_blockPoint? b.body))

/-! ## The issues that questions fail with -/

/-- There is an answer and no issue, or a failure that has the line of the issue. -/
inductive FailsWith {α : Type} : Except Failure α → Option Issue → Prop
  | answer (a : α) : FailsWith (.ok a) none
  | failure {e : Failure} {issue : Issue} (h : e.line? = some issue.line) :
      FailsWith (.error e) (some issue)

section FailsWith

variable {α β : Type}

theorem FailsWith.bind_ok {x : Except Failure α} {issue? : Option Issue} (h : FailsWith x issue?)
    (f : α → β) : FailsWith (x >>= fun a => .ok (f a)) issue? := by
  cases h with
  | answer a => exact .answer (f a)
  | failure h => exact .failure h

/-- **A run over rules fails with the first issue**, if each step fails with the issue of its
rule. -/
theorem failsWith_foldlM {step : β → Rule → Except Failure β} {issue? : Rule → Option Issue}
    (hstep : ∀ found rule, FailsWith (step found rule) (issue? rule)) (rules : List Rule)
    (found : β) : FailsWith (rules.foldlM step found) (rules.findSome? issue?) := by
  induction rules generalizing found with
  | nil => exact .answer found
  | cons rule rules ih =>
    have hrule := hstep found rule
    rw [List.foldlM_cons, List.findSome?_cons]
    generalize step found rule = x, issue? rule = issue at hrule
    cases hrule with
    | answer found => exact ih found
    | failure h => exact .failure h

/-- A question about a stylesheet whose braces balance fails with the first issue at the top level,
or else with what it finds. -/
theorem failsWith_readSheet {t : Text} (hcount : t.count '\x7b' = t.count '\x7d')
    {question : List Rule → Except Failure α} {found? : Option Issue}
    (h : FailsWith (question (parseStylesheet t)) found?) :
    FailsWith (readSheet (Utf8.encode t) >>= question)
      ((Rule.firstIssue? (parseStylesheet t)).or found?) := by
  rw [readSheet_encode]
  cases hissue : Rule.firstIssue? (parseStylesheet t) with
  | some issue =>
    rw [loadSheet_eq_error_iff.mpr (.inr ⟨hcount, issue, hissue, rfl⟩)]
    exact .failure rfl
  | none =>
    rw [loadSheet_eq_ok_iff.mpr ⟨hcount, hissue, rfl⟩, Option.none_or]
    exact h

end FailsWith

theorem failsWith_innerRules (rule : AtRule) (label scope : String) :
    FailsWith (innerRules rule label scope) (Rule.firstIssue? rule.rules) := by
  unfold innerRules checkIssues
  cases Rule.firstIssue? rule.rules with
  | none => exact .answer _
  | some issue => exact .failure rfl

theorem failsWith_addMedia (found : Table (List MediaRule)) (rule : Rule) :
    FailsWith (addMedia found rule) (innerIssue? (·.isNamed "media".toList) rule) := by
  cases rule with
  | qualified r => exact .answer found
  | error issue => exact .answer found
  | atRule r =>
    simp only [addMedia, innerIssue?]
    split
    · exact (failsWith_innerRules r _ _).bind_ok _
    · exact .answer found

theorem failsWith_addDefinition (found : Table Keyframes) (rule : Rule) :
    FailsWith (addDefinition found rule) (innerIssue? definesAnimation rule) := by
  cases rule with
  | qualified r => exact .answer found
  | error issue => exact .answer found
  | atRule r =>
    simp only [addDefinition, innerIssue?]
    split
    · exact (failsWith_innerRules r _ _).bind_ok _
    · exact .answer found

theorem failsWith_addFonts (t : Text) :
    FailsWith (addFonts (parseStylesheet t) ∅) ((sheetBlocks t).findSome? Block.issue?) := by
  have hwalk := addFonts_eq_foldlM t ∅
  rw [foldlM_fileBlock] at hwalk
  cases hissue : (sheetBlocks t).findSome? Block.issue? with
  | none =>
    rw [hissue] at hwalk
    rw [Outcomes.mapError_eq_ok_iff.mp hwalk]
    exact .answer _
  | some issue =>
    rw [hissue] at hwalk
    cases hfonts : addFonts (parseStylesheet t) ∅ with
    | ok table =>
      rw [hfonts] at hwalk
      cases hwalk
    | error e =>
      rw [hfonts] at hwalk
      have hinnermost := Except.error.inj hwalk
      refine .failure ?_
      rw [← e.line?_innermost, hinnermost]
      rfl

/-! ## The lines of failures -/

/-- The line is that of the point within the part that was read.  What it lacks to the line in the
text are the line ends in front of that part. -/
structure TellsInnerLine (t : Text) (n : Nat) (p : Point) : Prop where
  stands : StandsBehind t p.outer p.inner
  eq_innerLine : n = p.innerLine
  line_eq : p.line = n + lineEnds p.outer
  eq_line_iff : n = p.line ↔ lineEnds p.outer = 0

theorem FoundAt.tellsInnerLine {t : Text} {issue : Issue} {p : Point} (h : FoundAt t issue p) :
    TellsInnerLine t issue.line p := by
  have hline : p.line = issue.line + lineEnds p.outer := by
    rw [h.line_eq, Point.line, Point.innerLine, h.stands.lineEnds_append]
    omega
  exact ⟨h.stands, h.line_eq, hline, by omega⟩

/-- There is an answer and no point, or a failure whose line is told of the point. -/
inductive FailsAt {α : Type} (t : Text) : Except Failure α → Option Point → Prop
  | answer (a : α) : FailsAt t (.ok a) none
  | failure {e : Failure} {n : Nat} {p : Point} (hline : e.line? = some n)
      (hpoint : TellsInnerLine t n p) : FailsAt t (.error e) (some p)

theorem FailsWith.failsAt {α : Type} {t : Text} {x : Except Failure α} {issue? : Option Issue}
    {point? : Option Point} (h : FailsWith x issue?) (hrel : Option.Rel (FoundAt t) issue? point?) :
    FailsAt t x point? := by
  cases h with
  | answer a =>
    cases hrel
    exact .answer a
  | failure hline =>
    cases hrel with
    | some hfound => exact .failure hline hfound.tellsInnerLine

/-- **A question has an answer unless it has a point**, if the braces balance. -/
theorem failsAt_of_count {t : Text} (hcount : t.count '\x7b' = t.count '\x7d') :
    FailsAt t (mediaQueries (Utf8.encode t)) (innerPoint? (·.isNamed "media".toList) t) ∧
    FailsAt t (animations (Utf8.encode t)) (innerPoint? definesAnimation t) ∧
    FailsAt t (fonts (Utf8.encode t)) (fontsPoint? t) := by
  refine ⟨?_, ?_, ?_⟩
  · exact (failsWith_readSheet hcount (failsWith_foldlM failsWith_addMedia _ ∅)).failsAt
      (rel_innerPoint? _ t)
  · exact (failsWith_readSheet hcount
      ((failsWith_foldlM failsWith_addDefinition _ ∅).bind_ok _)).failsAt (rel_innerPoint? _ t)
  · exact (failsWith_readSheet hcount (failsWith_addFonts t)).failsAt (rel_fontsPoint? t)

/-- Unbalanced braces fail every question, and that failure has no line. -/
theorem count_eq_of_line? {α : Type} {t : Text} {question : List Rule → Except Failure α}
    {e : Failure} {n : Nat} (hline : e.line? = some n)
    (h : readSheet (Utf8.encode t) >>= question = .error e) :
    t.count '\x7b' = t.count '\x7d' := by
  by_contra hne
  have hload := loadSheet_eq_error_iff.mpr (.inl ⟨hne, rfl⟩)
  rw [readSheet_encode, hload] at h
  cases h
  cases hline

theorem FailsAt.exists_point {α : Type} {t : Text} {x : Except Failure α} {point? : Option Point}
    (h : FailsAt t x point?) {e : Failure} {n : Nat} (hline : e.line? = some n)
    (hx : x = .error e) : ∃ p, point? = some p ∧ TellsInnerLine t n p := by
  cases h with
  | answer a => cases hx
  | failure hline' hpoint =>
    cases hx
    cases hline.symm.trans hline'
    exact ⟨_, rfl, hpoint⟩

theorem FailsAt.exists_failure {α : Type} {t : Text} {x : Except Failure α} {p : Point}
    (h : FailsAt t x (some p)) : ∃ e, x = .error e ∧ e.line? = some p.innerLine := by
  cases h with
  | @failure e _ _ hline hpoint => exact ⟨e, rfl, hpoint.eq_innerLine ▸ hline⟩

/-- **A failure inside a block has the line within the block.**  If a question about media queries,
animations or fonts fails with a failure that has a line, there is a point at which it fails: where
the first fault at the top level of the stylesheet shows, or else the first in the insides of its
`@media` rules, in those of its definitions of animations, or in the blocks that the question about
fonts reaches, at any depth.  The line counts from the beginning of the part that was read: the
stylesheet, or the inside of the innermost block around the point. -/
theorem inner_failure_line (t : Text) {e : Failure} {n : Nat} (hline : e.line? = some n) :
    (mediaQueries (Utf8.encode t) = .error e →
      ∃ p, innerPoint? (·.isNamed "media".toList) t = some p ∧ TellsInnerLine t n p) ∧
    (animations (Utf8.encode t) = .error e →
      ∃ p, innerPoint? definesAnimation t = some p ∧ TellsInnerLine t n p) ∧
    (fonts (Utf8.encode t) = .error e →
      ∃ p, fontsPoint? t = some p ∧ TellsInnerLine t n p) :=
  ⟨fun h => (failsAt_of_count (count_eq_of_line? hline h)).1.exists_point hline h,
    fun h => (failsAt_of_count (count_eq_of_line? hline h)).2.1.exists_point hline h,
    fun h => (failsAt_of_count (count_eq_of_line? hline h)).2.2.exists_point hline h⟩

/-- Three faults, each in the second line of the inside of a block: of a media query, of the
definition of an animation, and of the block of a class. -/
def threeFaults : Text :=
  "\n@media print\x7b\n.b\x7d\n@keyframes k\x7b\n.c\x7d\n.d\x7b\ne f\x7d".toList

/-- The points of the three questions, by their lines within the block and within the sheet. -/
theorem points_threeFaults :
    (∃ p, innerPoint? (·.isNamed "media".toList) threeFaults = some p ∧ p.innerLine = 2 ∧
      p.line = 3) ∧
    (∃ p, innerPoint? definesAnimation threeFaults = some p ∧ p.innerLine = 2 ∧ p.line = 5) ∧
    ∃ p, fontsPoint? threeFaults = some p ∧ p.innerLine = 2 ∧ p.line = 7 := by
  refine ⟨⟨⟨"\n@media print\x7b".toList, "\n.b".toList⟩, ?_⟩,
    ⟨⟨"\n@media print\x7b\n.b\x7d\n@keyframes k\x7b".toList, "\n.c".toList⟩, ?_⟩,
    ⟨"\n@media print\x7b\n.b\x7d\n@keyframes k\x7b\n.c\x7d\n.d\x7b".toList,
      "\ne".toList⟩, ?_⟩ <;> decide +kernel

/-- All three fail with the second line. -/
theorem failures_threeFaults :
    (∃ e, mediaQueries (Utf8.encode threeFaults) = .error e ∧ e.line? = some 2) ∧
    (∃ e, animations (Utf8.encode threeFaults) = .error e ∧ e.line? = some 2) ∧
    ∃ e, fonts (Utf8.encode threeFaults) = .error e ∧ e.line? = some 2 := by
  obtain ⟨⟨p, hp, hpline, -⟩, ⟨q, hq, hqline, -⟩, r, hr, hrline, -⟩ := points_threeFaults
  have hfails := @failsAt_of_count threeFaults (by decide)
  rw [hp, hq, hr] at hfails
  exact ⟨hpline ▸ hfails.1.exists_failure, hqline ▸ hfails.2.1.exists_failure,
    hrline ▸ hfails.2.2.exists_failure⟩

/-- Their lines are told of the points of `threeFaults`. -/
theorem inner_failure_line_threeFaults :
    (∃ e, mediaQueries (Utf8.encode threeFaults) = .error e ∧ e.line? = some 2 ∧
      ∃ p, innerPoint? (·.isNamed "media".toList) threeFaults = some p ∧
        TellsInnerLine threeFaults 2 p) ∧
    (∃ e, animations (Utf8.encode threeFaults) = .error e ∧ e.line? = some 2 ∧
      ∃ p, innerPoint? definesAnimation threeFaults = some p ∧ TellsInnerLine threeFaults 2 p) ∧
    ∃ e, fonts (Utf8.encode threeFaults) = .error e ∧ e.line? = some 2 ∧
      ∃ p, fontsPoint? threeFaults = some p ∧ TellsInnerLine threeFaults 2 p := by
  obtain ⟨⟨e, he, hline⟩, ⟨e', he', hline'⟩, e'', he'', hline''⟩ := failures_threeFaults
  exact ⟨⟨e, he, hline, (inner_failure_line threeFaults hline).1 he⟩,
    ⟨e', he', hline', (inner_failure_line threeFaults hline').2.1 he'⟩,
    e'', he'', hline'', (inner_failure_line threeFaults hline'').2.2 he''⟩

/-- **The line of a failure need not be a line of the stylesheet where anything is wrong**, for any
of the three questions. -/
theorem exists_inner_failure_line_ne :
    (¬ ∀ t e n, mediaQueries (Utf8.encode t) = .error e → e.line? = some n →
      ∃ p, innerPoint? (·.isNamed "media".toList) t = some p ∧ n = p.line) ∧
    (¬ ∀ t e n, animations (Utf8.encode t) = .error e → e.line? = some n →
      ∃ p, innerPoint? definesAnimation t = some p ∧ n = p.line) ∧
    ¬ ∀ t e n, fonts (Utf8.encode t) = .error e → e.line? = some n →
      ∃ p, fontsPoint? t = some p ∧ n = p.line := by
  obtain ⟨⟨e, he, hline⟩, ⟨e', he', hline'⟩, e'', he'', hline''⟩ := failures_threeFaults
  obtain ⟨⟨p, hp, -, hpline⟩, ⟨q, hq, -, hqline⟩, r, hr, -, hrline⟩ := points_threeFaults
  refine ⟨fun hall => ?_, fun hall => ?_, fun hall => ?_⟩
  · obtain ⟨p', hp', heq⟩ := hall _ _ _ he hline
    cases hp.symm.trans hp'
    omega
  · obtain ⟨q', hq', heq⟩ := hall _ _ _ he' hline'
    cases hq.symm.trans hq'
    omega
  · obtain ⟨r', hr', heq⟩ := hall _ _ _ he'' hline''
    cases hr.symm.trans hr'
    omega

end Extract
end StyleAudit
