import StyleAudit.Proofs.Css.LineEnds
import StyleAudit.Proofs.Css.Relabel

/-!
# Where faults show

An issue has a line and a column and no longer knows which lexeme it was found at.  This file
says, for each reader of the grammar, at which point of the lexemes its fault shows; the point is
given by the lexemes from there on, so none of them is left if it is the end of the text.

* A rule that begins like the declaration of a custom property shows its fault where it begins, and
  any other rule where its head ends without a block: at the semicolon, or at the end of the
  text (`qualifiedFault?`).
* A declaration without a value shows it at the semicolon or at the end of the text, one without a
  colon behind its name, and one with a block in its value behind the brace (`declarationFault?`).
* What begins with a name and can be read neither way shows the fault of the declaration
  (`itemFault?`).

**The line and the column of every issue are those of the point where its fault shows**
(`showsAt_parseStylesheet`, `showsAt_parseBlock`).  And the points are a matter of tokens only: a
change of lexemes that keeps the tokens does not move them (`ruleFault?_map`, `itemFault?_map`).
-/

namespace StyleAudit.Css

/-! ## The points -/

/-- Where the fault of a qualified rule shows, if it has one. -/
def qualifiedFault? (nested : Bool) (ls : List Lexeme) : Option (List Lexeme) :=
  if customPropertyAhead ls then some ls
  else
    match skipBlanks (valuesUntil (if nested then endsHead else opensBlock) [] ls).2 with
    | [] => some []
    | e :: rest => if opensBlock e.token then none else some (e :: rest)

/-- Where the fault of a declaration shows, if it has one; its property name stands before the
lexemes. -/
def declarationFault? (ls : List Lexeme) : Option (List Lexeme) :=
  match skipBlanks ls with
  | [] => some []
  | l :: rest =>
    if l.token = .semicolon then some (l :: rest)
    else if l.token = .colon then
      match skipBlanks (valuesUntil endsHead [] rest).2 with
      | [] => none
      | e :: after => if opensBlock e.token then some after else none
    else some ls

/-- Where the fault of the rule shows that begins at the front of the lexemes, if it has one.
At-rules have none. -/
def ruleFault? (ls : List Lexeme) : Option (List Lexeme) :=
  match ls with
  | ⟨.atKeyword _, _, _⟩ :: _ => none
  | ls => qualifiedFault? false ls

/-- Where the fault of the item shows that begins at the front of the lexemes, if it has one. -/
def itemFault? (ls : List Lexeme) : Option (List Lexeme) :=
  match ls with
  | ⟨.atKeyword _, _, _⟩ :: _ => none
  | ⟨.ident _, _, _⟩ :: rest => do
    let point ← declarationFault? rest
    let _ ← qualifiedFault? true ls
    return point
  | ls => qualifiedFault? true ls

section Points

variable {l : Lexeme} {ls : List Lexeme}

theorem ruleFault?_of_atKeyword {keyword : Text} (h : l.token = .atKeyword keyword) :
    ruleFault? (l :: ls) = none := by
  obtain ⟨token, text, start⟩ := l
  obtain rfl : token = .atKeyword keyword := h
  rfl

theorem ruleFault?_of_qualified (h : ∀ keyword, l.token ≠ .atKeyword keyword) :
    ruleFault? (l :: ls) = qualifiedFault? false (l :: ls) := by
  obtain ⟨token, text, start⟩ := l
  cases token with
  | atKeyword keyword => exact absurd rfl (h keyword)
  | _ => rfl

theorem itemFault?_of_atKeyword {keyword : Text} (h : l.token = .atKeyword keyword) :
    itemFault? (l :: ls) = none := by
  obtain ⟨token, text, start⟩ := l
  obtain rfl : token = .atKeyword keyword := h
  rfl

theorem itemFault?_of_ident {name : Text} (h : l.token = .ident name) :
    itemFault? (l :: ls) = (do
      let point ← declarationFault? ls
      let _ ← qualifiedFault? true (l :: ls)
      return point) := by
  obtain ⟨token, text, start⟩ := l
  obtain rfl : token = .ident name := h
  rfl

theorem itemFault?_of_qualified (hk : ∀ keyword, l.token ≠ .atKeyword keyword)
    (hi : ∀ name, l.token ≠ .ident name) :
    itemFault? (l :: ls) = qualifiedFault? true (l :: ls) := by
  obtain ⟨token, text, start⟩ := l
  cases token with
  | atKeyword keyword => exact absurd rfl (hk keyword)
  | ident name => exact absurd rfl (hi name)
  | _ => rfl

end Points

/-- Where the first fault in a stylesheet shows, blocks not looked into. -/
def sheetFault? (t : Text) : Option (List Lexeme) :=
  (ruleStarts (endPlace t) true (lexemes t)).findSome? ruleFault?

/-- Where the first fault in a block shows. -/
def blockFault? (t : Text) : Option (List Lexeme) :=
  (itemStarts (endPlace t) (lexemes t)).findSome? itemFault?

/-! ## Issues show there -/

/-- Nothing is at fault and no point is given, or the issue has the line and the column of the
point. -/
inductive ShowsAt (t : Text) : Option Issue → Option (List Lexeme) → Prop
  | sound : ShowsAt t none none
  | fault {issue : Issue} {ls : List Lexeme} (hls : ls <:+ lexemes t)
      (hline : issue.line = (placeOf (endPlace t) ls).line)
      (hcolumn : issue.column = (placeOf (endPlace t) ls).column) :
      ShowsAt t (some issue) (some ls)

/-- The issue that a reader ends with. -/
def issueOf? {α : Type} : Except Issue α → Option Issue
  | .ok _ => none
  | .error issue => some issue

/-- The issue that stands in the place of a rule. -/
def Rule.issue? : Rule → Option Issue
  | .error issue => some issue
  | _ => none

/-- The issue that stands in the place of an item. -/
def Item.issue? : Item → Option Issue
  | .error issue => some issue
  | _ => none

theorem Rule.firstIssue?_eq (rules : List Rule) :
    Rule.firstIssue? rules = rules.findSome? Rule.issue? := rfl

theorem Item.firstIssue?_eq (items : List Item) :
    Item.firstIssue? items = items.findSome? Item.issue? := rfl

section ShowsAt

variable {t : Text} {ls : List Lexeme}

theorem showsAt_issueAt (f : Fault) (hls : ls <:+ lexemes t) :
    ShowsAt t (some (f.issueAt (placeOf (endPlace t) ls))) (some ls) :=
  .fault hls rfl rfl

theorem showsAt_qualifiedAhead (nested : Bool) (hls : ls <:+ lexemes t) :
    ShowsAt t (issueOf? (qualifiedAhead nested (endPlace t) ls).1) (qualifiedFault? nested ls) := by
  have hrest := skipBlanks_valuesUntil_suffix (if nested then endsHead else opensBlock) [] ls
  simp only [qualifiedAhead, qualifiedFault?]
  by_cases hcustom : customPropertyAhead ls = true
  · rw [if_pos hcustom, if_pos hcustom]
    exact showsAt_issueAt _ hls
  · rw [if_neg hcustom, if_neg hcustom]
    cases hend : skipBlanks (valuesUntil (if nested then endsHead else opensBlock) [] ls).2 with
    | nil => exact showsAt_issueAt _ List.nil_suffix
    | cons e rest =>
      rw [hend] at hrest
      by_cases hopens : opensBlock e.token = true
      · simp only [hopens, if_true]
        exact .sound
      · simp only [hopens]
        exact showsAt_issueAt _ (hrest.trans hls)

theorem showsAt_declarationAhead (name : Text) (hls : ls <:+ lexemes t) :
    ShowsAt t (issueOf? (declarationAhead (endPlace t) name ls)) (declarationFault? ls) := by
  have hskip := (skipBlanks_suffix ls).trans hls
  simp only [declarationAhead, declarationFault?]
  cases hl : skipBlanks ls with
  | nil => exact showsAt_issueAt _ List.nil_suffix
  | cons l rest =>
    rw [hl] at hskip
    have hrest := (List.suffix_cons l rest).trans hskip
    have hvalue := (skipBlanks_valuesUntil_suffix endsHead [] rest).trans hrest
    by_cases hsemicolon : l.token = .semicolon
    · simp only [hsemicolon, if_true]
      exact showsAt_issueAt _ hskip
    by_cases hcolon : l.token = .colon
    · simp only [hcolon, reduceCtorEq, if_true, if_false]
      cases hend : skipBlanks (valuesUntil endsHead [] rest).2 with
      | nil => exact .sound
      | cons e after =>
        rw [hend] at hvalue
        by_cases hopens : opensBlock e.token = true
        · simp only [hopens, if_true, stop_eq_placeOf hvalue]
          exact showsAt_issueAt _ ((List.suffix_cons e after).trans hvalue)
        · simp only [hopens]
          exact .sound
    · simp only [hsemicolon, hcolon, if_false]
      exact showsAt_issueAt _ hls

theorem showsAt_ofResult {r : Except Issue QualifiedRule} {point : Option (List Lexeme)}
    (h : ShowsAt t (issueOf? r) point) : ShowsAt t (Rule.ofResult r).issue? point := by
  cases r <;> exact h

theorem showsAt_ofResult_none {r : Except Issue QualifiedRule} {point : Option (List Lexeme)}
    (h : ShowsAt t (issueOf? r) point) : ShowsAt t (Item.ofResult none r).issue? point := by
  cases r <;> exact h

/-- If neither reading of a name succeeds, the fault of the first one shows. -/
theorem showsAt_ofResult_some {issue : Issue} {r : Except Issue QualifiedRule}
    {point other : Option (List Lexeme)} (hpoint : ShowsAt t (some issue) point)
    (hother : ShowsAt t (issueOf? r) other) :
    ShowsAt t (Item.ofResult (some issue) r).issue? (do
      let point ← point
      let _ ← other
      return point) := by
  cases hpoint with
  | fault hls hline hcolumn =>
    cases r with
    | ok rule => cases hother; exact .sound
    | error issue' => cases hother; exact .fault hls hline hcolumn

theorem showsAt_ruleAt {l : Lexeme} (hls : l :: ls <:+ lexemes t) :
    ShowsAt t (ruleAt (endPlace t) (l :: ls)).issue? (ruleFault? (l :: ls)) := by
  obtain ⟨token, text, start⟩ := l
  cases token with
  | atKeyword keyword => exact .sound
  | _ => exact showsAt_ofResult (showsAt_qualifiedAhead false hls)

theorem showsAt_itemAt {l : Lexeme} (hls : l :: ls <:+ lexemes t) :
    ShowsAt t (itemAt (endPlace t) (l :: ls)).issue? (itemFault? (l :: ls)) := by
  obtain ⟨token, text, start⟩ := l
  cases token with
  | atKeyword keyword => exact .sound
  | ident name =>
    have hdeclaration := showsAt_declarationAhead name ((List.suffix_cons _ ls).trans hls)
    cases hd : declarationAhead (endPlace t) name ls with
    | ok r =>
      rw [hd] at hdeclaration
      have hpoint : declarationFault? ls = none := by
        generalize declarationFault? ls = point at hdeclaration
        cases hdeclaration
        rfl
      rw [itemAt_of_declaration rfl hd]
      simp only [itemFault?, hpoint]
      exact .sound
    | error issue =>
      rw [hd] at hdeclaration
      rw [itemAt_of_retried rfl hd]
      exact showsAt_ofResult_some hdeclaration (showsAt_qualifiedAhead true hls)
  | _ => exact showsAt_ofResult_none (showsAt_qualifiedAhead true hls)

/-- The first issue of a list shows where the first fault does. -/
theorem showsAt_findSome? {α : Type} {starts : List α} {issue? : α → Option Issue}
    {point? : α → Option (List Lexeme)} (h : ∀ s ∈ starts, ShowsAt t (issue? s) (point? s)) :
    ShowsAt t (starts.findSome? issue?) (starts.findSome? point?) := by
  induction starts with
  | nil => exact .sound
  | cons s starts ih =>
    have ih := ih fun s' hs' => h s' (List.mem_cons_of_mem s hs')
    have hs := h s List.mem_cons_self
    rw [List.findSome?_cons, List.findSome?_cons]
    generalize issue? s = issue at hs
    generalize point? s = point at hs
    cases hs with
    | sound => exact ih
    | fault hls hline hcolumn => exact .fault hls hline hcolumn

end ShowsAt

/-- **The first issue of a stylesheet shows where its first fault does.** -/
theorem showsAt_parseStylesheet (t : Text) :
    ShowsAt t (Rule.firstIssue? (parseStylesheet t)) (sheetFault? t) := by
  rw [Rule.firstIssue?_eq, parseStylesheet, rulesFrom_eq_map, List.findSome?_map]
  refine showsAt_findSome? fun s hs => ?_
  obtain ⟨hne, hsuffix⟩ := ruleStarts_suffix hs
  obtain ⟨l, ls, rfl⟩ := List.exists_cons_of_ne_nil hne
  exact showsAt_ruleAt hsuffix

/-- **The first issue of a block shows where its first fault does.** -/
theorem showsAt_parseBlock (t : Text) :
    ShowsAt t (Item.firstIssue? (parseBlock t)) (blockFault? t) := by
  rw [Item.firstIssue?_eq, parseBlock, itemsFrom_eq_map, List.findSome?_map]
  refine showsAt_findSome? fun s hs => ?_
  obtain ⟨hne, hsuffix⟩ := itemStarts_suffix hs
  obtain ⟨l, ls, rfl⟩ := List.exists_cons_of_ne_nil hne
  exact showsAt_itemAt hsuffix

/-! ## Changed lexemes -/

section Relabel

variable {f : Lexeme → Lexeme} (hf : KeepsTokens f)

include hf

theorem qualifiedFault?_map (nested : Bool) (ls : List Lexeme) :
    qualifiedFault? nested (ls.map f) = (qualifiedFault? nested ls).map (List.map f) := by
  simp only [qualifiedFault?]
  rw [customPropertyAhead_map hf, skipBlanks_valuesUntil_map hf (hf.endsPrelude nested)]
  split
  · rfl
  · cases skipBlanks (valuesUntil (if nested then endsHead else opensBlock) [] ls).2 with
    | nil => rfl
    | cons e rest =>
      simp only [List.map_cons, hf.opensBlock]
      split <;> rfl

theorem declarationFault?_map (ls : List Lexeme) :
    declarationFault? (ls.map f) = (declarationFault? ls).map (List.map f) := by
  simp only [declarationFault?]
  rw [skipBlanks_map hf]
  cases skipBlanks ls with
  | nil => rfl
  | cons l rest =>
    have hsemi : (f l).token = .semicolon ↔ l.token = .semicolon :=
      hf.token_eq (fun _ => Token.noConfusion) l
    have hcolon : (f l).token = .colon ↔ l.token = .colon :=
      hf.token_eq (fun _ => Token.noConfusion) l
    simp only [List.map_cons, hsemi, hcolon]
    split
    · rfl
    · split
      · rw [skipBlanks_valuesUntil_map hf (hf.eq fun _ _ => rfl)]
        cases skipBlanks (valuesUntil endsHead [] rest).2 with
        | nil => rfl
        | cons e after =>
          simp only [List.map_cons, hf.opensBlock]
          split <;> rfl
      · rfl

theorem ruleFault?_map (l : Lexeme) (ls : List Lexeme) :
    ruleFault? ((l :: ls).map f) = (ruleFault? (l :: ls)).map (List.map f) := by
  have hkeyword : ∀ keyword, (f l).token = .atKeyword keyword ↔ l.token = .atKeyword keyword :=
    fun keyword => hf.token_eq (fun _ => Token.noConfusion) l
  by_cases hk : ∃ keyword, l.token = .atKeyword keyword
  · obtain ⟨keyword, hk⟩ := hk
    rw [ruleFault?_of_atKeyword hk, List.map_cons,
      ruleFault?_of_atKeyword ((hkeyword keyword).mpr hk)]
    rfl
  · have hk : ∀ keyword, l.token ≠ .atKeyword keyword := fun keyword h => hk ⟨keyword, h⟩
    rw [ruleFault?_of_qualified hk, List.map_cons,
      ruleFault?_of_qualified fun keyword h => hk keyword ((hkeyword keyword).mp h)]
    exact qualifiedFault?_map hf false (l :: ls)

theorem itemFault?_map (l : Lexeme) (ls : List Lexeme) :
    itemFault? ((l :: ls).map f) = (itemFault? (l :: ls)).map (List.map f) := by
  have hkeyword : ∀ keyword, (f l).token = .atKeyword keyword ↔ l.token = .atKeyword keyword :=
    fun keyword => hf.token_eq (fun _ => Token.noConfusion) l
  have hident : ∀ name, (f l).token = .ident name ↔ l.token = .ident name :=
    fun name => hf.token_eq (fun _ => Token.noConfusion) l
  have hqualified := qualifiedFault?_map hf true (l :: ls)
  rw [List.map_cons] at hqualified ⊢
  by_cases hk : ∃ keyword, l.token = .atKeyword keyword
  · obtain ⟨keyword, hk⟩ := hk
    rw [itemFault?_of_atKeyword hk, itemFault?_of_atKeyword ((hkeyword keyword).mpr hk)]
    rfl
  have hk : ∀ keyword, l.token ≠ .atKeyword keyword := fun keyword h => hk ⟨keyword, h⟩
  by_cases hi : ∃ name, l.token = .ident name
  · obtain ⟨name, hi⟩ := hi
    rw [itemFault?_of_ident hi, itemFault?_of_ident ((hident name).mpr hi),
      declarationFault?_map hf, hqualified]
    cases declarationFault? ls with
    | none => rfl
    | some point => cases qualifiedFault? true (l :: ls) <;> rfl
  have hi : ∀ name, l.token ≠ .ident name := fun name h => hi ⟨name, h⟩
  rw [itemFault?_of_qualified hk hi, itemFault?_of_qualified
    (fun keyword h => hk keyword ((hkeyword keyword).mp h))
    (fun name h => hi name ((hident name).mp h)), hqualified]

omit hf in
/-- The first point among the starts of the changed lexemes. -/
theorem findSome?_map_map {starts : List (List Lexeme)}
    {point? : List Lexeme → Option (List Lexeme)}
    (h : ∀ s ∈ starts, point? (s.map f) = (point? s).map (List.map f)) :
    (starts.map (List.map f)).findSome? point? = (starts.findSome? point?).map (List.map f) := by
  induction starts with
  | nil => rfl
  | cons s starts ih =>
    have ih := ih fun s' hs' => h s' (List.mem_cons_of_mem s hs')
    rw [List.map_cons, List.findSome?_cons, List.findSome?_cons, h s List.mem_cons_self, ih]
    cases point? s <;> rfl

end Relabel

end StyleAudit.Css
