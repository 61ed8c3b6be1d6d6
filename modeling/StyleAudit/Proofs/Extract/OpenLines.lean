import StyleAudit.Proofs.Css.Blanking
import StyleAudit.Proofs.Extract.LinesFirst
import StyleAudit.Proofs.Outcomes
import StyleAudit.Proofs.Text.SourceLines

/-!
# Which line lacks its semicolon

The semicolon checks look at a text without its comments, and the check of a block trims what it
looks at on top of that.  Here is told which line of the text itself they object to, and when.

A line *lacks its semicolon* if it looks like a declaration that is not ended and the text goes on
in the next line (`OpenAt`).  Both lines are taken without what the comments cover, and both are
trimmed.  Of these lines the first one is found.

* In a stylesheet nothing else is asked, and the number that is told is that of the line in the
  text (`validate_eq_missingSemicolon_iff`).
* In a block the next line may be blank, but a line that is not blank must follow somewhere
  (`OpenInBlock`): where a block is trimmed, its blank lines at both ends are lost
  (`exists_splitLines_trim`), and so are their numbers.  The check of a block tells no number
  (`checkBlockLines_eq_error_iff`).
-/

namespace StyleAudit.Extract

open Css
open Text (Coverage Matches splitLines trim)

/-! ## Lines that lack their semicolon -/

/-- A line looks like a declaration that is not ended. -/
structure LooksOpen (line : Text) : Prop where
  colon : ':' ∈ line
  brace : '\x7d' ∉ line
  semicolon : line.getLast? ≠ some ';'
  opening : line.getLast? ≠ some '\x7b'

theorem looksUnterminated_iff {line : Text} : looksUnterminated line = true ↔ LooksOpen line := by
  simp only [looksUnterminated, Text.endsIn, Bool.and_eq_true, Bool.not_eq_true', Bool.eq_false_iff,
    List.contains_iff_mem, ne_eq, beq_iff_eq]
  constructor
  · rintro ⟨⟨⟨hcolon, hsemicolon⟩, hopening⟩, hbrace⟩
    exact ⟨hcolon, hbrace, hsemicolon, hopening⟩
  · rintro ⟨hcolon, hbrace, hsemicolon, hopening⟩
    exact ⟨⟨⟨hcolon, hsemicolon⟩, hopening⟩, hbrace⟩

/-- Line number `i`, counted from zero, lacks its semicolon: trimmed it is `line`, which looks like
a declaration that is not ended, and the text goes on in the line behind it. -/
structure OpenAt (GoesOn : Text → Prop) (lines : List Text) (i : Nat) (line : Text) : Prop where
  here : ∃ l, lines[i]? = some l ∧ trim l = line
  looks : LooksOpen line
  next : ∃ l, lines[i + 1]? = some l ∧ GoesOn l

/-- A stylesheet goes on in a line that is not blank and does not begin with a closing brace. -/
def SheetGoesOn (l : Text) : Prop := trim l ≠ [] ∧ (trim l).head? ≠ some '\x7d'

/-- A block goes on in a line that has a colon or does not begin with a closing brace. -/
def BlockGoesOn (l : Text) : Prop := ':' ∈ l ∨ (trim l).head? ≠ some '\x7d'

theorem sheetGoesOn_iff (l : Text) : sheetGoesOn l = true ↔ SheetGoesOn l := by
  simp [sheetGoesOn, SheetGoesOn, Text.startsWith]

theorem blockGoesOn_iff (l : Text) : blockGoesOn l = true ↔ BlockGoesOn l := by
  simp [blockGoesOn, BlockGoesOn, Text.startsWith]

/-- **The search finds the first line that lacks its semicolon.** -/
theorem findUnterminated_eq_some_iff {goesOn : Text → Bool} {GoesOn : Text → Prop}
    (hgoes : ∀ l, goesOn l = true ↔ GoesOn l) {lines : List Text} {start n : Nat} {line : Text} :
    findUnterminated goesOn start lines = some (n, line) ↔
      ∃ i, n = start + i ∧ OpenAt GoesOn lines i line ∧
        ∀ j < i, ∀ line', ¬ OpenAt GoesOn lines j line' := by
  induction lines generalizing start with
  | nil =>
    refine iff_of_false (fun h => by cases h) ?_
    rintro ⟨i, -, ⟨⟨l, h, -⟩, -, -⟩, -⟩
    cases h
  | cons first lines ih =>
    cases lines with
    | nil =>
      refine iff_of_false (fun h => by cases h) ?_
      rintro ⟨i, -, ⟨-, -, l, h, -⟩, -⟩
      cases h
    | cons next rest =>
      have hstep : ∀ {j line'}, OpenAt GoesOn (next :: rest) j line' ↔
          OpenAt GoesOn (first :: next :: rest) (j + 1) line' :=
        ⟨fun ⟨h, h', h''⟩ => ⟨h, h', h''⟩, fun ⟨h, h', h''⟩ => ⟨h, h', h''⟩⟩
      rw [findUnterminated]
      split
      next hopen =>
        rw [Bool.and_eq_true, looksUnterminated_iff, hgoes] at hopen
        have hfirst : OpenAt GoesOn (first :: next :: rest) 0 (trim first) :=
          ⟨⟨first, rfl, rfl⟩, hopen.1, next, rfl, hopen.2⟩
        have hone : ∀ line', OpenAt GoesOn (first :: next :: rest) 0 line' → line' = trim first := by
          intro line' h
          obtain ⟨l, hl, rfl⟩ := h.here
          cases hl
          rfl
        rw [Text.exists_first_iff_of_zero hfirst hone, Option.some.injEq, Prod.mk.injEq, eq_comm,
          @eq_comm _ (trim first)]
      next hclosed =>
        rw [Bool.and_eq_true, looksUnterminated_iff, hgoes] at hclosed
        have hfirst : ∀ line', ¬ OpenAt GoesOn (first :: next :: rest) 0 line' := by
          rintro line' ⟨⟨l, hl, rfl⟩, hlooks, l', hl', hgoes'⟩
          cases hl
          cases hl'
          exact hclosed ⟨hlooks, hgoes'⟩
        simp only [Text.exists_first_iff_of_not_zero hfirst, ih, hstep]

/-! ## Lines of a stylesheet -/

theorem checkSheetLines_eq_error_iff {t line : Text} {n : Nat} {m : Coverage}
    (hm : Matches CommentAt t m) :
    checkSheetLines t = .error (.missingSemicolon line (some n)) ↔
      ∃ i, n = i + 1 ∧ OpenAt SheetGoesOn (m.lines.map Coverage.bare) i line ∧
        ∀ j < i, ∀ line', ¬ OpenAt SheetGoesOn (m.lines.map Coverage.bare) j line' := by
  rw [checkSheetLines, splitLines_blankComments hm]
  trans findUnterminated sheetGoesOn 1 (m.lines.map Coverage.bare) = some (n, line)
  · cases findUnterminated sheetGoesOn 1 (m.lines.map Coverage.bare) with
    | none => exact iff_of_false (fun h => by cases h) (fun h => by cases h)
    | some found =>
      refine ⟨fun h => ?_, fun h => ?_⟩
      · cases h
        rfl
      · cases h
        rfl
  · simp only [findUnterminated_eq_some_iff sheetGoesOn_iff, Nat.add_comm 1]

/-- A line of the whole stylesheet is looked at when nothing is wrong with the blocks. -/
theorem validate_eq_missingSemicolon_some {t line : Text} {n : Nat} :
    validate (Utf8.encode t) = .error (.missingSemicolon line (some n)) ↔
      (∃ rules, loadSheet t = .ok rules ∧ ∀ r ∈ rules, Passes r) ∧
        checkSheetLines t = .error (.missingSemicolon line (some n)) := by
  rw [validate_encode, validateText_eq_error_iff]
  constructor
  · rintro (h | ⟨rules, hload, h | ⟨hrules, h⟩⟩)
    · rcases loadSheet_eq_error_iff.mp h with ⟨-, h⟩ | ⟨-, issue, -, h⟩ <;> cases h
    · -- the check of a block tells no number
      obtain ⟨-, r, -, -, -, hr⟩ := exists_split_of_forM_eq_error h
      rcases checkRule_cases r with ⟨-, h, -⟩ | ⟨-, -, -, _, _, _, h, -⟩ |
        ⟨-, -, -, -, _, h, -⟩
      all_goals
        rw [h] at hr
        cases hr
    · exact ⟨⟨rules, hload, fun r hr =>
        passes_of_checkRule_eq_ok (Outcomes.eq_ok_of_forM_eq_ok hrules r hr)⟩, h⟩
  · rintro ⟨⟨rules, hload, hrules⟩, h⟩
    exact .inr ⟨rules, hload,
      .inr ⟨forM_eq_ok fun r hr => (checkRule_of_passes (hrules r hr)).1, h⟩⟩

/-- **The line that lacks its semicolon, and its number.**  The comments of a text are the matches
of one pattern, from left to right, and whatever they cover, the lines of the text are its
stretches between line feeds.  The validation fails with a missing semicolon and the number `n`
exactly if nothing is wrong with the rules and their blocks, and line `n` of the text, without what
the comments cover, is the first one that lacks its semicolon; it is not the last line. -/
theorem validate_eq_missingSemicolon_iff (t : Text) :
    (∃ m, Matches CommentAt t m) ∧ ∀ m, Matches CommentAt t m →
      m.lines.map Coverage.text = splitLines t ∧
      ∀ line n, validate (Utf8.encode t) = .error (.missingSemicolon line (some n)) ↔
        (∃ rules, loadSheet t = .ok rules ∧ ∀ r ∈ rules, Passes r) ∧
          n < (splitLines t).length ∧
          ∃ i, n = i + 1 ∧ OpenAt SheetGoesOn (m.lines.map Coverage.bare) i line ∧
            ∀ j < i, ∀ line', ¬ OpenAt SheetGoesOn (m.lines.map Coverage.bare) j line' := by
  refine ⟨exists_matches_comments t, fun m hm => ?_⟩
  have hlines : m.lines.map Coverage.text = splitLines t := by
    rw [Coverage.map_text_lines, hm.text_eq]
  have hlength : (splitLines t).length = (m.lines.map Coverage.bare).length := by
    rw [← hlines, List.length_map, List.length_map]
  refine ⟨hlines, fun line n => ?_⟩
  rw [validate_eq_missingSemicolon_some, checkSheetLines_eq_error_iff hm]
  refine and_congr_right fun _ => ⟨?_, And.right⟩
  rintro ⟨i, rfl, hi, hnone⟩
  obtain ⟨next, hnext, -⟩ := hi.next
  refine ⟨?_, i, rfl, hi, hnone⟩
  rw [hlength]
  exact (List.getElem?_eq_some_iff.mp hnext).1

/-- A rule inside an at-rule, whose block is not looked at.  In the third line, between comments,
stands a declaration without its semicolon. -/
def besideComments : Text :=
  ("/* two\nlines */ @media all \x7b .a \x7b\n" ++
    "  /* a: */ color: red /* ; */\n  margin: 0;\n\x7d \x7d\n").toList

/-- The third line is objected to, and shown without the comments. -/
theorem validate_besideComments : validate (Utf8.encode besideComments) =
    .error (.missingSemicolon "color: red".toList (some 3)) := by
  obtain ⟨⟨m, hm⟩, hvalidate⟩ := validate_eq_missingSemicolon_iff besideComments
  have hlines : m.lines.map Coverage.bare = [[], " @media all \x7b .a \x7b".toList,
      "   color: red ".toList, "  margin: 0;".toList, "\x7d \x7d".toList, []] := by
    rw [← splitLines_blankComments hm]
    decide +kernel
  have hrules : parseStylesheet besideComments = [.atRule ⟨"media".toList, "all".toList,
      some " .a \x7b\n  /* a: */ color: red /* ; */\n  margin: 0;\n\x7d".toList, 2⟩] := by
    decide +kernel
  have hload : loadSheet besideComments = .ok (parseStylesheet besideComments) :=
    loadSheet_eq_ok_iff.mpr ⟨by decide, by decide +kernel, rfl⟩
  have hfront : ∀ l ∈ [[], " @media all \x7b .a \x7b".toList], ':' ∉ trim l := by decide
  rw [(hvalidate m hm).2, hlines]
  refine ⟨⟨_, hload, ?_⟩, by decide +kernel, 2, rfl, ⟨⟨_, rfl, by decide⟩, ?_, _, rfl, ?_⟩, ?_⟩
  · rw [hrules]
    exact List.forall_mem_singleton.mpr trivial
  · exact looksUnterminated_iff.mp (by decide)
  · exact (sheetGoesOn_iff _).mp (by decide)
  · rintro j hj line' ⟨⟨l, hl, rfl⟩, hlooks, -⟩
    exact hfront l (List.mem_of_getElem? ((List.getElem?_take_of_lt hj).trans hl)) hlooks.colon

/-! ## Lines of a block -/

/-- A line with blanks put around it. -/
def Padded (l l' : Text) : Prop :=
  ∃ u v, (∀ c ∈ u, isBlank c = true) ∧ (∀ c ∈ v, isBlank c = true) ∧ l = u ++ l' ++ v

theorem Padded.refl (l : Text) : Padded l l :=
  ⟨[], [], fun _ h => absurd h List.not_mem_nil, fun _ h => absurd h List.not_mem_nil, by simp⟩

theorem Padded.trim_eq {l l' : Text} (h : Padded l l') : trim l = trim l' := by
  obtain ⟨u, v, hu, hv, rfl⟩ := h
  rw [List.append_assoc, Text.trim_append_of_isBlank hu, Text.trim_append_blanks hv]

theorem Padded.colon_mem_iff {l l' : Text} (h : Padded l l') : ':' ∈ l ↔ ':' ∈ l' := by
  obtain ⟨u, v, hu, hv, rfl⟩ := h
  have hu' : ':' ∉ u := fun hmem => absurd (hu _ hmem) (by decide)
  have hv' : ':' ∉ v := fun hmem => absurd (hv _ hmem) (by decide)
  simp [hu', hv']

theorem Padded.blockGoesOn_iff {l l' : Text} (h : Padded l l') :
    BlockGoesOn l ↔ BlockGoesOn l' := by
  rw [BlockGoesOn, BlockGoesOn, h.colon_mem_iff, h.trim_eq]

/-- A line of a block lacks its semicolon only if one of the lines behind it is not blank. -/
structure OpenInBlock (lines : List Text) (i : Nat) (line : Text) : Prop where
  openAt : OpenAt BlockGoesOn lines i line
  more : ∃ k l, i < k ∧ lines[k]? = some l ∧ trim l ≠ []

/-- **The lines of a text that is trimmed** are its lines, less blank ones at both ends, and
without the blanks at the ends of the first and the last that is left. -/
theorem exists_splitLines_trim (t : Text) :
    ∃ before lines after, splitLines t = before ++ lines ++ after ∧
      (∀ l ∈ before, trim l = []) ∧ (∀ l ∈ after, trim l = []) ∧
      List.Forall₂ Padded lines (splitLines (trim t)) := by
  obtain ⟨lead, trail, ht, hlead, htrail⟩ := Text.exists_append_trim_append t
  have hblank : ∀ {u : Text}, (∀ c ∈ u, isBlank c = true) → ∀ l ∈ splitLines u,
      ∀ c ∈ l, isBlank c = true :=
    fun hu l hl c hc => hu c (Text.subset_of_mem_splitOn hl hc)
  have hnone : ∀ c ∈ ([] : Text), isBlank c = true := fun c hc => absurd hc List.not_mem_nil
  obtain ⟨front, last, first, rest, hs, hsplitTrail, hbehind, -⟩ :=
    Text.exists_splitOn_append '\n' (trim t) trail
  obtain ⟨before, last', first', rest', hsplitLead, hmid, hall, -⟩ :=
    Text.exists_splitOn_append '\n' lead (trim t ++ trail)
  rw [hbehind] at hmid
  rw [← ht] at hall
  have hfirst : ∀ c ∈ first, isBlank c = true :=
    hblank htrail first (by rw [splitLines, hsplitTrail]; exact List.mem_cons_self)
  have hlast' : ∀ c ∈ last', isBlank c = true :=
    hblank hlead last' (by rw [splitLines, hsplitLead]; simp)
  have hbefore : ∀ l ∈ before, trim l = [] := fun l hl =>
    Text.trim_eq_nil_iff.mpr (hblank hlead l (by rw [splitLines, hsplitLead]; simp [hl]))
  have hafter : ∀ l ∈ rest, trim l = [] := fun l hl =>
    Text.trim_eq_nil_iff.mpr (hblank htrail l (by rw [splitLines, hsplitTrail]; simp [hl]))
  rw [splitLines, splitLines, hall, hs]
  cases front with
  | nil =>
    cases hmid
    exact ⟨before, [last' ++ (last ++ first)], rest, by simp, hbefore, hafter,
      .cons ⟨last', first, hlast', hfirst, by simp⟩ .nil⟩
  | cons p front =>
    cases hmid
    refine ⟨before, (last' ++ first') :: (front ++ [last ++ first]), rest, by simp, hbefore, hafter,
      .cons ⟨last', [], hlast', hnone, by simp⟩ ?_⟩
    exact List.rel_append (List.forall₂_same.mpr fun l _ => Padded.refl l)
      (.cons ⟨[], first, hnone, hfirst, rfl⟩ .nil)

/-- The last line of a text that is trimmed is not blank, unless the text is empty. -/
theorem exists_getLast?_splitLines_trim {t : Text} (h : trim t ≠ []) :
    ∃ l, (splitLines (trim t)).getLast? = some l ∧ trim l ≠ [] := by
  obtain ⟨u, x, hx⟩ := List.eq_nil_or_concat (trim t) |>.resolve_left h
  have hblank : isBlank x = false := by
    refine (Text.not_isBlank_of_trim_eq_self (Text.trim_trim t)).2 x ?_
    rw [hx, List.concat_eq_append]
    exact List.getLast?_concat
  have hfeed : '\n' ∉ [x] := by
    rw [List.mem_singleton]
    rintro rfl
    cases hblank
  obtain ⟨front, last, first, rest, -, hsplit, happend, -⟩ :=
    Text.exists_splitOn_append '\n' u [x]
  rw [Text.splitOn_of_notMem hfeed] at hsplit
  cases hsplit
  refine ⟨last ++ [x], ?_, fun hnil => ?_⟩
  · rw [hx, List.concat_eq_append, splitLines, happend]
    exact List.getLast?_concat
  · rw [Text.trim_eq_nil_iff.mp hnil x (by simp)] at hblank
    cases hblank

section OpenAt

variable {GoesOn : Text → Prop} {before lines lines' after : List Text} {i k : Nat} {line : Text}

theorem OpenAt.ne_nil (h : OpenAt GoesOn lines i line) : line ≠ [] := by
  rintro rfl
  cases h.looks.colon

/-- Blank lines in front change the numbers only. -/
theorem openAt_append_iff (hbefore : ∀ l ∈ before, trim l = []) :
    OpenAt GoesOn (before ++ lines) k line ↔
      ∃ i, k = before.length + i ∧ OpenAt GoesOn lines i line := by
  have hshift : ∀ i, (before ++ lines)[before.length + i]? = lines[i]? := fun i => by
    rw [List.getElem?_append_right (Nat.le_add_right _ _), Nat.add_sub_cancel_left]
  constructor
  · intro h
    rcases Nat.lt_or_ge k before.length with hk | hk
    · obtain ⟨l, hl, htrim⟩ := h.here
      rw [List.getElem?_append_left hk] at hl
      rw [hbefore l (List.mem_of_getElem? hl)] at htrim
      exact absurd htrim.symm h.ne_nil
    · obtain ⟨i, rfl⟩ := Nat.exists_eq_add_of_le hk
      obtain ⟨hhere, hlooks, hnext⟩ := h
      rw [hshift] at hhere
      rw [Nat.add_assoc, hshift] at hnext
      exact ⟨i, rfl, hhere, hlooks, hnext⟩
  · rintro ⟨i, rfl, hhere, hlooks, hnext⟩
    refine ⟨?_, hlooks, ?_⟩
    · rwa [hshift]
    · rwa [Nat.add_assoc, hshift]

/-- Lines behind the next one do not matter. -/
theorem openAt_append_left_iff (hi : i + 1 < lines.length) :
    OpenAt GoesOn (lines ++ after) i line ↔ OpenAt GoesOn lines i line := by
  have hhere : (lines ++ after)[i]? = lines[i]? := List.getElem?_append_left (by omega)
  have hnext : (lines ++ after)[i + 1]? = lines[i + 1]? := List.getElem?_append_left hi
  refine ⟨fun ⟨h, h', h''⟩ => ⟨?_, h', ?_⟩, fun ⟨h, h', h''⟩ => ⟨?_, h', ?_⟩⟩
  · rwa [hhere] at h
  · rwa [hnext] at h''
  · rwa [hhere]
  · rwa [hnext]

/-- Related lists have related entries. -/
theorem exists_getElem?_of_forall₂ {α β : Type} {R : α → β → Prop} {l : List α} {l' : List β}
    (h : List.Forall₂ R l l') {a : α} (ha : l[i]? = some a) : ∃ b, l'[i]? = some b ∧ R a b := by
  induction h generalizing i with
  | nil => cases ha
  | cons hab _ ih =>
    cases i with
    | zero =>
      cases ha
      exact ⟨_, rfl, hab⟩
    | succ i => exact ih ha

/-- Blanks around the lines of a block do not matter. -/
theorem openAt_padded_iff (h : List.Forall₂ Padded lines lines') :
    OpenAt BlockGoesOn lines i line ↔ OpenAt BlockGoesOn lines' i line := by
  constructor
  · rintro ⟨⟨l, hl, rfl⟩, hlooks, next, hnext, hgoes⟩
    obtain ⟨l', hl', hpadded⟩ := exists_getElem?_of_forall₂ h hl
    obtain ⟨next', hnext', hpadded'⟩ := exists_getElem?_of_forall₂ h hnext
    exact ⟨⟨l', hl', hpadded.trim_eq.symm⟩, hlooks, next', hnext', hpadded'.blockGoesOn_iff.mp hgoes⟩
  · rintro ⟨⟨l', hl', rfl⟩, hlooks, next', hnext', hgoes⟩
    obtain ⟨l, hl, hpadded⟩ := exists_getElem?_of_forall₂ h.flip hl'
    obtain ⟨next, hnext, hpadded'⟩ := exists_getElem?_of_forall₂ h.flip hnext'
    exact ⟨⟨l, hl, Padded.trim_eq hpadded⟩, hlooks, next, hnext,
      (Padded.blockGoesOn_iff hpadded').mpr hgoes⟩

end OpenAt

/-- **Trimming a block leaves the lines that lack their semicolon**, if a line that is not blank
must follow; only their numbers change. -/
theorem exists_openInBlock_iff (t : Text) :
    ∃ shift, ∀ {k line}, OpenInBlock (splitLines t) k line ↔
      ∃ i, k = shift + i ∧ OpenAt BlockGoesOn (splitLines (trim t)) i line := by
  obtain ⟨before, lines, after, ht, hbefore, hafter, hlines⟩ := exists_splitLines_trim t
  rw [ht, List.append_assoc]
  refine ⟨before.length, ?_⟩
  intro k line
  constructor
  · rintro ⟨hopen, k', l, hk, hl, hne⟩
    obtain ⟨i, rfl, hi⟩ := (openAt_append_iff hbefore).mp hopen
    have hlt : i + 1 < lines.length := by
      by_contra hge
      rw [List.getElem?_append_right (by omega), List.getElem?_append_right (by omega)] at hl
      exact hne (hafter l (List.mem_of_getElem? hl))
    exact ⟨i, rfl, (openAt_padded_iff hlines).mp ((openAt_append_left_iff hlt).mp hi)⟩
  · rintro ⟨i, rfl, hi⟩
    have hi' := (openAt_padded_iff hlines).mpr hi
    obtain ⟨next, hnext, -⟩ := hi'.next
    have hlt : i + 1 < lines.length := (List.getElem?_eq_some_iff.mp hnext).1
    refine ⟨(openAt_append_iff hbefore).mpr ⟨i, rfl, (openAt_append_left_iff hlt).mpr hi'⟩, ?_⟩
    have hne : trim t ≠ [] := by
      intro hnil
      rw [hnil] at hi
      obtain ⟨l, hl, -⟩ := hi.next
      cases hl
    obtain ⟨l', hl', hne'⟩ := exists_getLast?_splitLines_trim hne
    rw [List.getLast?_eq_getElem?, ← hlines.length_eq] at hl'
    obtain ⟨l, hl, hpadded⟩ := exists_getElem?_of_forall₂ hlines.flip hl'
    refine ⟨before.length + (lines.length - 1), l, by omega, ?_, by rwa [Padded.trim_eq hpadded]⟩
    rw [List.getElem?_append_right (by omega), Nat.add_sub_cancel_left,
      List.getElem?_append_left (by omega), hl]

/-- **The line of a block that is objected to.** -/
theorem checkBlockLines_eq_error_iff {body line : Text} {m : Coverage}
    (hm : Matches CommentAt body m) :
    checkBlockLines body = .error (.missingSemicolon line none) ↔
      ∃ i, OpenInBlock (m.lines.map Coverage.bare) i line ∧
        ∀ j < i, ∀ line', ¬ OpenInBlock (m.lines.map Coverage.bare) j line' := by
  obtain ⟨shift, hshift⟩ := exists_openInBlock_iff (blankComments body)
  rw [← splitLines_blankComments hm]
  trans ∃ n, findUnterminated blockGoesOn 1 (splitLines (trim (blankComments body))) = some (n, line)
  · rw [checkBlockLines]
    cases findUnterminated blockGoesOn 1 (splitLines (trim (blankComments body))) with
    | none =>
      refine iff_of_false (fun h => by cases h) ?_
      rintro ⟨n, h⟩
      cases h
    | some found =>
      constructor
      · intro h
        cases h
        exact ⟨found.1, rfl⟩
      · rintro ⟨n, h⟩
        cases h
        rfl
  simp only [findUnterminated_eq_some_iff blockGoesOn_iff]
  constructor
  · rintro ⟨-, i, -, hi, hnone⟩
    refine ⟨shift + i, hshift.mpr ⟨i, rfl, hi⟩, fun k hk line' h => ?_⟩
    obtain ⟨j, rfl, hj⟩ := hshift.mp h
    exact hnone j (by omega) line' hj
  · rintro ⟨k, hk, hnone⟩
    obtain ⟨i, rfl, hi⟩ := hshift.mp hk
    exact ⟨1 + i, i, rfl, hi, fun j hj line' h =>
      hnone (shift + j) (by omega) line' (hshift.mpr ⟨j, rfl, h⟩)⟩

end StyleAudit.Extract
