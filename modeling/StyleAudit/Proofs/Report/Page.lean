import StyleAudit.Proofs.Report.Commands
import StyleAudit.Proofs.Report.Groups

/-!
# What a person reads

The report for a person consists of lines of a few kinds (`Line`): a title, a line for each file, a
line for each diagnostic with what is to be shown below it, and a summary at the end.  This file
says which lines a report has (`page`, `toList_human`), and that they can be told from the text.

A person does not see the colours (`bare`), and tells a line by the sign it begins with and by how
far it is indented (`Line.read?`).  What stands in a line is what the checks and the stylesheets put
there, so this can fail: a line feed makes two lines of one, an escape character hides what stands
behind it, and in the line of a diagnostic a colon or a bracket in the name of the check moves the
places where the line is cut.  Diagnostics without these are *legible* (`Legible`).

* `toList_human` --- the text is that of a page, and the summary;
* `filterMap_finding?_page` --- on the page is one line about each diagnostic;
* `readPage_writtenLines`, `legible_page` --- the page of legible diagnostics is what is read.
-/

namespace StyleAudit.Report

open Text

/-! ## Colours -/

/-- A stretch of a line, in the colour with the given code if it has one. -/
structure Stretch where
  code : Option Text := none
  text : Text

namespace Stretch

/-- A stretch as it is written. -/
def written (colors : Bool) (s : Stretch) : Text :=
  match s.code with
  | some code =>
    if colors then '\x1b' :: '[' :: (code ++ 'm' :: (s.text ++ ['\x1b', '[', '0', 'm'])) else s.text
  | none => s.text

theorem written_none (colors : Bool) (t : Text) : written colors ⟨none, t⟩ = t := rfl

end Stretch

/-- The codes of the colours. -/
def colorCodes : List Text := ["1", "2", "31", "32", "33", "36"].map String.toList

/-- A text without its colours: these go from an escape character to the next letter `m`. -/
def bareFrom : Bool → Text → Text
  | _, [] => []
  | true, c :: t => bareFrom (c != 'm') t
  | false, c :: t => if c = '\x1b' then bareFrom true t else c :: bareFrom false t

/-- A text as it is seen. -/
def bare (t : Text) : Text := bareFrom false t

/-- A text that stays on its line and is seen as it is. -/
structure Clean (t : Text) : Prop where
  line : '\n' ∉ t
  escape : '\x1b' ∉ t

instance : DecidablePred Clean := fun t =>
  decidable_of_iff ('\n' ∉ t ∧ '\x1b' ∉ t) ⟨fun h => ⟨h.1, h.2⟩, fun h => ⟨h.line, h.escape⟩⟩

theorem Clean.cons {c : Char} {t : Text} (hc : c ≠ '\n' ∧ c ≠ '\x1b') (ht : Clean t) :
    Clean (c :: t) where
  line := List.not_mem_cons_of_ne_of_not_mem hc.1.symm ht.line
  escape := List.not_mem_cons_of_ne_of_not_mem hc.2.symm ht.escape

theorem Clean.append {u t : Text} (hu : Clean u) (ht : Clean t) : Clean (u ++ t) where
  line := fun h => (List.mem_append.mp h).elim hu.line ht.line
  escape := fun h => (List.mem_append.mp h).elim hu.escape ht.escape

theorem bare_append {u : Text} (h : '\x1b' ∉ u) (t : Text) : bare (u ++ t) = u ++ bare t := by
  induction u with
  | nil => rfl
  | cons c u ih =>
    have hc : c ≠ '\x1b' := by
      rintro rfl
      exact h List.mem_cons_self
    rw [List.cons_append, bare, bareFrom, if_neg hc, ← bare, ih fun hmem => h (.tail c hmem),
      List.cons_append]

/-- A code ends at its letter. -/
theorem bareFrom_true_append {code : Text} (h : 'm' ∉ code) (t : Text) :
    bareFrom true (code ++ 'm' :: t) = bare t := by
  induction code with
  | nil => rfl
  | cons c code ih =>
    have hc : (c != 'm') = true := bne_iff_ne.mpr <| by
      rintro rfl
      exact h List.mem_cons_self
    rw [List.cons_append, bareFrom, hc, ih fun hmem => h (.tail c hmem)]

/-- A stretch with a clean text, in one of the colours or in none. -/
structure Stretch.Tidy (s : Stretch) : Prop where
  clean : Clean s.text
  code : ∀ code ∈ s.code, code ∈ colorCodes

section Stretches

variable {colors : Bool}

/-- **What is seen of a stretch is its text.** -/
theorem Stretch.Tidy.bare_written {s : Stretch} (h : s.Tidy) (t : Text) :
    bare (s.written colors ++ t) = s.text ++ bare t := by
  obtain ⟨_ | code, text⟩ := s
  · exact bare_append h.clean.escape t
  cases colors with
  | false => exact bare_append h.clean.escape t
  | true =>
    have hcode : 'm' ∉ code := (by decide : ∀ code ∈ colorCodes, 'm' ∉ code) code (h.code code rfl)
    have hm : 'm' ∉ '[' :: code := List.not_mem_cons_of_ne_of_not_mem (by decide) hcode
    calc bare ('\x1b' :: '[' :: (code ++ 'm' :: (text ++ ['\x1b', '[', '0', 'm'])) ++ t)
        = bareFrom true (('[' :: code) ++ 'm' :: (text ++ '\x1b' :: ('[' :: '0' :: 'm' :: t))) := by
          simp [bare, bareFrom]
      _ = bare (text ++ '\x1b' :: ('[' :: '0' :: 'm' :: t)) := bareFrom_true_append hm _
      _ = text ++ bare t := bare_append h.clean.escape _

theorem Stretch.Tidy.notMem_written {s : Stretch} (h : s.Tidy) : '\n' ∉ s.written colors := by
  obtain ⟨_ | code, text⟩ := s
  · exact h.clean.line
  cases colors with
  | false => exact h.clean.line
  | true =>
    have hcode : '\n' ∉ code :=
      (by decide : ∀ code ∈ colorCodes, '\n' ∉ code) code (h.code code rfl)
    simpa [Stretch.written, hcode] using h.clean.line

theorem bare_flatMap_written {ss : List Stretch} (h : ∀ s ∈ ss, s.Tidy) :
    bare (ss.flatMap (Stretch.written colors)) = ss.flatMap Stretch.text := by
  induction ss with
  | nil => rfl
  | cons s ss ih =>
    obtain ⟨hs, hss⟩ := List.forall_mem_cons.mp h
    rw [List.flatMap_cons, hs.bare_written, ih hss, List.flatMap_cons]

theorem notMem_flatMap_written {ss : List Stretch} (h : ∀ s ∈ ss, s.Tidy) :
    '\n' ∉ ss.flatMap (Stretch.written colors) := by
  rw [List.mem_flatMap]
  rintro ⟨s, hs, hmem⟩
  exact (h s hs).notMem_written hmem

end Stretches

instance : DecidablePred Stretch.Tidy := fun s =>
  decidable_of_iff (Clean s.text ∧ ∀ code ∈ s.code, code ∈ colorCodes)
    ⟨fun h => ⟨h.1, h.2⟩, fun h => ⟨h.clean, h.code⟩⟩

theorem Stretch.Tidy.plain {t : Text} (h : Clean t) : Tidy ⟨none, t⟩ := ⟨h, nofun⟩

theorem Stretch.Tidy.colored {code t : Text} (hcode : code ∈ colorCodes) (h : Clean t) :
    Tidy ⟨some code, t⟩ :=
  ⟨h, fun _ hmem => Option.some.inj hmem ▸ hcode⟩

theorem toList_paint (v : View) (code text : String) :
    (v.paint code text).toList = Stretch.written v.colors ⟨some code.toList, text.toList⟩ := by
  unfold View.paint Stretch.written
  split <;> simp_all

/-! ## Lines -/

/-- What the line of a diagnostic tells: the place only if there is a line, the column only behind
it. -/
structure Finding where
  place : Option (Nat × Option Nat)
  check : Text
  severity : Severity
  message : Text
  deriving DecidableEq

/-- The lines above the summary. -/
inductive Line where
  /-- Nothing is shown. -/
  | allClear
  /-- Something is shown. -/
  | problems (errors : Bool)
  | file (path : Text)
  | finding (f : Finding)
  | context (text : Text)
  | fix (text : Text)
  | blank
  deriving DecidableEq

/-- A place as it is written. -/
def placeText : Option (Nat × Option Nat) → Text
  | none => ['?']
  | some (line, none) => (toString line).toList
  | some (line, some column) => (toString line).toList ++ ':' :: (toString column).toList

namespace Line

/-- What a line consists of. -/
def stretches : Line → List Stretch
  | allClear =>
    [⟨none, "✅ ".toList⟩, ⟨some "32".toList, "No stylesheet problems found".toList⟩]
  | problems errors =>
    [⟨none, (if errors then "❌ " else "⚠️ ").toList⟩,
      ⟨some (if errors then "31" else "33").toList, "Stylesheet Problems Found".toList⟩]
  | file path => [⟨none, '📁' :: ' ' :: path⟩]
  | finding f =>
    [⟨none, [' ', ' ']⟩, ⟨some "2".toList, placeText f.place ++ ':' :: f.check⟩, ⟨none, [' ', '[']⟩,
      ⟨some (severityColor f.severity).toList, f.severity.name.toList⟩,
      ⟨none, ']' :: ' ' :: f.message⟩]
  | context text => [⟨none, [' ', ' ', ' ', ' ']⟩, ⟨some "2".toList, '│' :: ' ' :: text⟩]
  | fix text => [⟨none, [' ', ' ', ' ', ' ']⟩, ⟨some "32".toList, '💡' :: ' ' :: text⟩]
  | blank => []

/-- A line as it is written, without the line feed behind it. -/
def written (colors : Bool) (l : Line) : Text := l.stretches.flatMap (Stretch.written colors)

/-- A line as it is seen. -/
def plain (l : Line) : Text := l.stretches.flatMap Stretch.text

/-- The diagnostic that a line is about. -/
def finding? : Line → Option Finding
  | finding f => some f
  | _ => none

end Line

/-! ## Pages -/

/-- What there is to be told of a diagnostic in its line. -/
def findingOf (d : Diagnostic) : Finding where
  place := d.line.map fun line => (line, d.column)
  check := d.checkId.toList
  severity := d.severity
  message := d.message.toList

/-- A line below that of a diagnostic, if it is wanted and there is something to show there. -/
def below (wanted : Bool) (kind : Text → Line) (text : Option String) : List Line :=
  if wanted then text.toList.map fun s => kind s.toList else []

/-- The lines of a diagnostic. -/
def entry (v : View) (d : Diagnostic) : List Line :=
  .finding (findingOf d) ::
    (below v.showContext .context d.context ++ below v.showFixes .fix d.fix ++ [.blank])

/-- The lines of a file. -/
def fileLines (v : View) (g : FileGroup) : List Line :=
  .file g.path.text :: g.diagnostics.flatMap (entry v)

/-- The lines above the summary, for diagnostics in groups. -/
def page (v : View) (errors : Bool) (groups : List FileGroup) : List Line :=
  (if groups = [] then [.allClear] else [.problems errors, .blank]) ++
    groups.flatMap (fileLines v)

/-- Lines as they are written one below the other. -/
def writtenLines (colors : Bool) (ls : List Line) : Text :=
  ls.flatMap fun l => l.written colors ++ ['\n']

theorem writtenLines_cons (colors : Bool) (l : Line) (ls : List Line) :
    writtenLines colors (l :: ls) = l.written colors ++ '\n' :: writtenLines colors ls := by
  rw [writtenLines, List.flatMap_cons, List.append_assoc, List.singleton_append, ← writtenLines]

theorem writtenLines_append (colors : Bool) (ls ms : List Line) :
    writtenLines colors (ls ++ ms) = writtenLines colors ls ++ writtenLines colors ms :=
  List.flatMap_append

theorem writtenLines_flatMap {α : Type} (colors : Bool) (as : List α) (f : α → List Line) :
    writtenLines colors (as.flatMap f) = as.flatMap fun a => writtenLines colors (f a) :=
  List.flatMap_assoc

/-! ## The text of a page -/

theorem toList_positionText (d : Diagnostic) :
    (positionText d).toList = placeText (findingOf d).place := by
  rcases hline : d.line with _ | line <;> rcases hcolumn : d.column with _ | column <;>
    simp [positionText, findingOf, placeText, hline, hcolumn]

theorem toList_detailLine (v : View) (wanted : Bool) (code : String) (mark : Char)
    (text : Option String) (kind : Text → Line)
    (hkind : ∀ t, (kind t).stretches =
      [⟨none, [' ', ' ', ' ', ' ']⟩, ⟨some code.toList, mark :: ' ' :: t⟩]) :
    (detailLine v wanted code (String.singleton mark) text).toList =
      writtenLines v.colors (below wanted kind text) := by
  cases text with
  | none => cases wanted <;> rfl
  | some s =>
    cases wanted with
    | false => rfl
    | true => simp [detailLine, below, writtenLines, Line.written, hkind, toList_paint,
        Stretch.written]

theorem toList_diagnosticText (v : View) (d : Diagnostic) :
    (diagnosticText v d).toList = writtenLines v.colors (entry v d) := by
  have hcontext := toList_detailLine v v.showContext "2" '│' d.context .context fun _ => rfl
  have hfix := toList_detailLine v v.showFixes "32" '💡' d.fix .fix fun _ => rfl
  have hfinding : ("  " ++ v.paint "2" (positionText d ++ ":" ++ d.checkId) ++ " [" ++
        v.paint (severityColor d.severity) d.severity.name ++ "] " ++ d.message).toList =
      (Line.finding (findingOf d)).written v.colors := by
    simp [Line.written, Line.stretches, toList_paint, toList_positionText, findingOf,
      Stretch.written]
  rw [diagnosticText, String.toList_append, String.toList_append, String.toList_append,
    String.toList_append, hfinding, entry, writtenLines_cons, writtenLines_append,
    writtenLines_append]
  show _ ++ ['\n'] ++ (detailLine v v.showContext "2" (String.singleton '│') d.context).toList ++
    (detailLine v v.showFixes "32" (String.singleton '💡') d.fix).toList ++ ['\n'] = _
  rw [hcontext, hfix, List.append_assoc, List.append_assoc, List.append_assoc, List.append_assoc]
  rfl

theorem toList_groupText (v : View) (g : FileGroup) :
    (groupText v g).toList = writtenLines v.colors (fileLines v g) := by
  have hheader : ("📁 " ++ String.ofList g.path.text).toList =
      (Line.file g.path.text).written v.colors := by
    simp [Line.written, Line.stretches, Stretch.written]
  rw [groupText, String.toList_append, String.toList_append, hheader, fileLines, writtenLines_cons,
    writtenLines_flatMap, String.toList_join, List.flatMap_map, List.append_assoc]
  simp only [toList_diagnosticText]
  rfl

/-- A line of a sign and a coloured text. -/
theorem toList_append_paint (v : View) (sign code text : String) :
    (sign ++ v.paint code text).toList =
      [⟨none, sign.toList⟩, ⟨some code.toList, text.toList⟩].flatMap (Stretch.written v.colors) := by
  rw [String.toList_append, toList_paint, List.flatMap_cons, List.flatMap_singleton]
  rfl

theorem toList_bannerText (v : View) (r : Report) : (bannerText v r).toList =
    writtenLines v.colors
      (if (v.shown r).isEmpty then [.allClear] else [.problems r.hasErrors, .blank]) := by
  rw [bannerText]
  split
  · rw [String.toList_append, toList_append_paint]
    exact (writtenLines_cons v.colors .allClear []).symm
  · have hproblems : ((if r.hasErrors then "❌ " ++ v.paint "31" "Stylesheet Problems Found"
          else "⚠️ " ++ v.paint "33" "Stylesheet Problems Found") : String).toList =
        (Line.problems r.hasErrors).written v.colors := by
      split
      next h => rw [toList_append_paint, h]; rfl
      next h => rw [toList_append_paint, Bool.eq_false_iff.mpr h]; rfl
    rw [String.toList_append, hproblems]
    exact (writtenLines_cons v.colors (.problems r.hasErrors) [.blank]).symm

/-- **The report for a person is its page and the summary.** -/
theorem toList_human (v : View) (r : Report) : (human v r).toList =
    writtenLines v.colors (page v r.hasErrors (groupByFile (v.shown r))) ++
      (summaryText v r).toList := by
  have hempty : (v.shown r).isEmpty = true ↔ groupByFile (v.shown r) = [] := by
    have hgroups := isGrouping_groupByFile (v.shown r)
    rw [List.isEmpty_iff]
    constructor
    · intro h
      rw [h]
      rfl
    · intro h
      have hperm := hgroups.perm_flatMap
      rw [h] at hperm
      exact hperm.nil_eq.symm
  rw [human, String.toList_append, String.toList_append, toList_bannerText, String.toList_join,
    List.flatMap_map, page, writtenLines_append, writtenLines_flatMap]
  simp only [toList_groupText, hempty]

/-! ## Reading a line -/

/-- A place and the name of a check, out of what stands between the colons. -/
def readPlace? : List Text → Option (Option (Nat × Option Nat) × Text)
  | [line, column, check] => some (some (numberOf line, some (numberOf column)), check)
  | [line, check] => some (if line = ['?'] then none else some (numberOf line, none), check)
  | _ => none

/-- What stands in the line of a diagnostic behind its indent. -/
def Finding.text (f : Finding) : Text :=
  placeText f.place ++ ':' :: f.check ++
    ([' ', '['] ++ (f.severity.name.toList ++ ([']', ' '] ++ f.message)))

/-- The line of a diagnostic as it is read behind its indent. -/
def Finding.read? (t : Text) : Option Finding := do
  let (front, behind) ← cutAt [' ', '['] t
  let (name, message) ← cutAt [']', ' '] behind
  let (place, check) ← readPlace? (splitOn ':' front)
  let severity ← Severity.ofName? (String.ofList name)
  return { place, check, severity, message }

/-- The lines that are the same in all reports. -/
def titles : List Line := [.allClear, .problems true, .problems false]

/-- A line as it is read, told by its sign and its indent. -/
def Line.read? : Text → Option Line
  | [] => some .blank
  | '📁' :: ' ' :: path => some (.file path)
  | ' ' :: ' ' :: ' ' :: ' ' :: '│' :: ' ' :: text => some (.context text)
  | ' ' :: ' ' :: ' ' :: ' ' :: '💡' :: ' ' :: text => some (.fix text)
  | ' ' :: ' ' :: text => (Finding.read? text).map .finding
  | text => titles.find? fun l => l.plain == text

/-- Whether a line is read as what it is. -/
def Line.Legible : Line → Prop
  | file path => Clean path
  | finding f => Clean f.check ∧ ':' ∉ f.check ∧ '[' ∉ f.check ∧ Clean f.message
  | context text => Clean text
  | fix text => Clean text
  | _ => True

theorem readPlace?_splitOn {check : Text} (h : ':' ∉ check) (place : Option (Nat × Option Nat)) :
    readPlace? (splitOn ':' (placeText place ++ ':' :: check)) = some (place, check) := by
  have hnumber := notMem_number (c := ':') (by decide)
  rcases place with _ | ⟨line, _ | column⟩
  · rw [placeText, splitOn_append_cons (by decide), splitOn_of_notMem h]
    rfl
  · have hmark : (toString line).toList ≠ ['?'] := fun heq =>
      notMem_number (c := '?') (by decide) line (heq ▸ List.mem_cons_self)
    rw [placeText, splitOn_append_cons (hnumber line), splitOn_of_notMem h, readPlace?,
      if_neg hmark, numberOf_number]
  · rw [placeText, List.append_assoc, List.cons_append, splitOn_append_cons (hnumber line),
      splitOn_append_cons (hnumber column), splitOn_of_notMem h, readPlace?, numberOf_number,
      numberOf_number]

theorem of_mem_placeText {place : Option (Nat × Option Nat)} {c : Char}
    (h : c ∈ placeText place) : c.isDigit = true ∨ c = '?' ∨ c = ':' := by
  rcases place with _ | ⟨line, _ | column⟩
  · exact .inr (.inl (List.mem_singleton.mp h))
  · exact .inl (isDigit_of_mem_number line c h)
  · rcases List.mem_append.mp h with h | h
    · exact .inl (isDigit_of_mem_number line c h)
    · rcases List.mem_cons.mp h with rfl | h
      · exact .inr (.inr rfl)
      · exact .inl (isDigit_of_mem_number column c h)

theorem notMem_placeText {c : Char} (h : c ∉ ['?', ':']) (hdigit : c.isDigit = false)
    (place : Option (Nat × Option Nat)) : c ∉ placeText place := by
  intro hmem
  rcases of_mem_placeText hmem with htrue | rfl | rfl
  · exact Bool.noConfusion (hdigit.symm.trans htrue)
  · exact h List.mem_cons_self
  · exact h (.tail _ List.mem_cons_self)

/-- A text is cut where two characters stand if the second of them does not stand further up. -/
theorem cutAt_append_pair {c d : Char} {a : Text} (hne : d ≠ c) (h : d ∉ a) (b : Text) :
    cutAt [c, d] (a ++ ([c, d] ++ b)) = some (a, b) := by
  refine (cutAt_append_iff (List.cons_ne_nil c [d]) a b).mpr fun hinfix => ?_
  have hmem : d ∈ a ++ [c] := hinfix.subset (.tail c List.mem_cons_self)
  rcases List.mem_append.mp hmem with hmem | hmem
  · exact h hmem
  · exact hne (List.mem_singleton.mp hmem)

namespace Line

variable {l : Line}

theorem Legible.read?_finding {f : Finding} (h : (finding f).Legible) :
    Finding.read? f.text = some f := by
  obtain ⟨-, hcolon, hbracket, -⟩ := h
  have hfront : '[' ∉ placeText f.place ++ ':' :: f.check := by
    rw [List.mem_append, List.mem_cons]
    rintro (h | h | h)
    · exact notMem_placeText (by decide) (by decide) _ h
    · cases h
    · exact hbracket h
  have hname : ' ' ∉ f.severity.name.toList := by
    cases f.severity <;> decide
  have hcut := cutAt_append_pair (c := ' ') (by decide) hfront
  have hcut' := cutAt_append_pair (c := ']') (by decide) hname
  simp only [Finding.read?, Finding.text, hcut, hcut', readPlace?_splitOn hcolon, String.ofList_toList,
    Severity.ofName?_name, Option.bind_eq_bind, Option.bind_some]
  rfl

/-- **A legible line is read as what it is.** -/
theorem Legible.read?_plain (h : l.Legible) : read? l.plain = some l := by
  cases l with
  | allClear => decide +kernel
  | problems errors => cases errors <;> decide +kernel
  | file path =>
    have hplain : (file path).plain = '📁' :: ' ' :: path := by simp [plain, stretches]
    rw [hplain]
    rfl
  | context text =>
    have hplain : (context text).plain = [' ', ' ', ' ', ' ', '│', ' '] ++ text := by
      simp [plain, stretches]
    rw [hplain]
    rfl
  | fix text =>
    have hplain : (fix text).plain = [' ', ' ', ' ', ' ', '💡', ' '] ++ text := by
      simp [plain, stretches]
    rw [hplain]
    rfl
  | blank => rfl
  | finding f =>
    have hplain : (finding f).plain = ' ' :: ' ' :: f.text := by
      simp [plain, stretches, Finding.text]
    -- what stands behind the indent is no further blank
    have hindent : ∀ t, f.text ≠ ' ' :: t := by
      intro t heq
      rw [Finding.text, List.append_assoc] at heq
      cases hplace : placeText f.place with
      | nil =>
        rw [hplace] at heq
        cases heq
      | cons c place =>
        rw [hplace] at heq
        obtain rfl := List.head_eq_of_cons_eq heq
        exact notMem_placeText (by decide) (by decide) f.place (hplace ▸ List.mem_cons_self)
    rw [hplain, read?, h.read?_finding]
    · rfl
    · exact fun t => hindent _
    · exact fun t => hindent _

theorem clean_placeText (place : Option (Nat × Option Nat)) : Clean (placeText place) :=
  ⟨notMem_placeText (by decide) (by decide) _, notMem_placeText (by decide) (by decide) _⟩

/-- A legible line consists of tidy stretches. -/
theorem Legible.tidy (h : l.Legible) : ∀ s ∈ l.stretches, s.Tidy := by
  -- a sign and a blank in front of a clean text
  have hsign : ∀ {c : Char} {t : Text}, c ≠ '\n' ∧ c ≠ '\x1b' → Clean t → Clean (c :: ' ' :: t) :=
    fun hc ht => .cons hc (.cons (by decide) ht)
  cases l with
  | allClear => decide +kernel
  | problems errors => cases errors <;> decide +kernel
  | file path => exact List.forall_mem_singleton.mpr (.plain (hsign (by decide) h))
  | context text =>
    exact List.forall_mem_cons.mpr ⟨by decide,
      List.forall_mem_singleton.mpr (.colored (by decide) (hsign (by decide) h))⟩
  | fix text =>
    exact List.forall_mem_cons.mpr ⟨by decide,
      List.forall_mem_singleton.mpr (.colored (by decide) (hsign (by decide) h))⟩
  | blank => exact List.forall_mem_nil _
  | finding f =>
    obtain ⟨hcheck, -, -, hmessage⟩ := h
    have hplace := (clean_placeText f.place).append (.cons (c := ':') (by decide) hcheck)
    have hseverity : Stretch.Tidy ⟨some (severityColor f.severity).toList,
        f.severity.name.toList⟩ := by
      cases f.severity <;> decide
    simp only [stretches, List.forall_mem_cons]
    exact ⟨by decide, .colored (by decide) hplace, by decide, hseverity,
      .plain (hsign (by decide) hmessage), List.forall_mem_nil _⟩

theorem Legible.bare_written (h : l.Legible) (colors : Bool) : bare (l.written colors) = l.plain :=
  bare_flatMap_written h.tidy

theorem Legible.notMem_written (h : l.Legible) (colors : Bool) : '\n' ∉ l.written colors :=
  notMem_flatMap_written h.tidy

end Line

/-! ## Reading a page -/

/-- The lines above the last one as they are read; behind each there is a line feed. -/
def readPage (t : Text) : List (Option Line) :=
  (splitLines t).dropLast.dropLast.map fun row => Line.read? (bare row)

/-- Whether what is shown of a diagnostic can be told from its lines. -/
structure Legible (v : View) (d : Diagnostic) : Prop where
  path : Clean d.path.text
  check : Clean d.checkId.toList ∧ ':' ∉ d.checkId.toList ∧ '[' ∉ d.checkId.toList
  message : Clean d.message.toList
  context : v.showContext = true → ∀ s ∈ d.context, Clean s.toList
  fix : v.showFixes = true → ∀ s ∈ d.fix, Clean s.toList

instance (v : View) : DecidablePred (Legible v) := fun d =>
  decidable_of_iff (Clean d.path.text ∧
      (Clean d.checkId.toList ∧ ':' ∉ d.checkId.toList ∧ '[' ∉ d.checkId.toList) ∧
      Clean d.message.toList ∧ (v.showContext = true → ∀ s ∈ d.context, Clean s.toList) ∧
      (v.showFixes = true → ∀ s ∈ d.fix, Clean s.toList))
    ⟨fun h => ⟨h.1, h.2.1, h.2.2.1, h.2.2.2.1, h.2.2.2.2⟩,
      fun h => ⟨h.path, h.check, h.message, h.context, h.fix⟩⟩

/-- **Legible lines are read as what they are**, whatever the last line is. -/
theorem readPage_writtenLines {ls : List Line} (h : ∀ l ∈ ls, l.Legible) (colors : Bool)
    {row : Text} (hrow : '\n' ∉ row) :
    readPage (writtenLines colors ls ++ (row ++ ['\n'])) = ls.map some := by
  have hrows : ∀ r ∈ ls.map (Line.written colors) ++ [row], '\n' ∉ r := by
    intro r hr
    rcases List.mem_append.mp hr with hr | hr
    · obtain ⟨l, hl, rfl⟩ := List.mem_map.mp hr
      exact (h l hl).notMem_written colors
    · rwa [List.mem_singleton.mp hr]
  have hwritten : writtenLines colors ls ++ (row ++ ['\n']) =
      (ls.map (Line.written colors) ++ [row]).flatMap fun r => r ++ ['\n'] := by
    rw [List.flatMap_append, List.flatMap_map, List.flatMap_singleton, writtenLines]
  rw [readPage, hwritten, splitLines_flatMap_append hrows, List.dropLast_concat,
    List.dropLast_concat, List.map_map]
  refine List.map_congr_left fun l hl => ?_
  rw [Function.comp_apply, (h l hl).bare_written, (h l hl).read?_plain]

theorem legible_of_mem_below {wanted : Bool} {kind : Text → Line} {text : Option String}
    (hkind : ∀ t, (kind t).Legible ↔ Clean t)
    (h : wanted = true → ∀ s ∈ text, Clean s.toList) : ∀ l ∈ below wanted kind text, l.Legible := by
  intro l hl
  unfold below at hl
  split at hl
  next hwanted =>
    obtain ⟨s, hs, rfl⟩ := List.mem_map.mp hl
    exact (hkind _).mpr (h hwanted s (Option.mem_toList.mp hs))
  next => cases hl

theorem Legible.entry {v : View} {d : Diagnostic} (h : Legible v d) :
    ∀ l ∈ entry v d, l.Legible := by
  intro l hl
  rcases List.mem_cons.mp hl with rfl | hl
  · exact ⟨h.check.1, h.check.2.1, h.check.2.2, h.message⟩
  rcases List.mem_append.mp hl with hl | hl
  · rcases List.mem_append.mp hl with hl | hl
    · exact legible_of_mem_below (fun _ => Iff.rfl) h.context l hl
    · exact legible_of_mem_below (fun _ => Iff.rfl) h.fix l hl
  · obtain rfl := List.mem_singleton.mp hl
    trivial

/-- **The page of legible diagnostics is legible.** -/
theorem legible_page {v : View} {ds : List Diagnostic} {groups : List FileGroup}
    (hgroups : IsGrouping ds groups) (h : ∀ d ∈ ds, Legible v d) (errors : Bool) :
    ∀ l ∈ page v errors groups, l.Legible := by
  have hmem : ∀ g ∈ groups, ∀ d ∈ g.diagnostics, d ∈ ds := fun g hg d hd =>
    hgroups.perm_flatMap.mem_iff.mp (List.mem_flatMap_of_mem hg hd)
  intro l hl
  rcases List.mem_append.mp hl with hl | hl
  · split at hl
    · obtain rfl := List.mem_singleton.mp hl
      trivial
    · rcases List.mem_cons.mp hl with rfl | hl
      · trivial
      · obtain rfl := List.mem_singleton.mp hl
        trivial
  obtain ⟨g, hg, hl⟩ := List.mem_flatMap.mp hl
  rcases List.mem_cons.mp hl with rfl | hl
  · obtain ⟨d, hd, hpath⟩ := Option.map_eq_some_iff.mp (hgroups.first g hg)
    exact hpath ▸ (h d (hmem g hg d (List.mem_of_head? hd))).path
  · obtain ⟨d, hd, hl⟩ := List.mem_flatMap.mp hl
    exact (h d (hmem g hg d hd)).entry l hl

/-! ## What a page tells of the diagnostics -/

theorem filterMap_finding?_entry (v : View) (d : Diagnostic) :
    (entry v d).filterMap Line.finding? = [findingOf d] := by
  have hbelow : ∀ wanted (kind : Text → Line) text, (∀ t, (kind t).finding? = none) →
      (below wanted kind text).filterMap Line.finding? = [] := by
    intro wanted kind text hkind
    rw [List.filterMap_eq_nil_iff]
    intro l hl
    unfold below at hl
    split at hl
    next =>
      obtain ⟨s, -, rfl⟩ := List.mem_map.mp hl
      exact hkind _
    next => cases hl
  rw [entry, List.filterMap_cons, List.filterMap_append, List.filterMap_append,
    hbelow _ .context _ fun _ => rfl, hbelow _ .fix _ fun _ => rfl]
  rfl

/-- **A page has a line about each diagnostic of its groups**, in their order. -/
theorem filterMap_finding?_page (v : View) (errors : Bool) (groups : List FileGroup) :
    (page v errors groups).filterMap Line.finding? =
      (groups.flatMap FileGroup.diagnostics).map findingOf := by
  have htitle : (if groups = [] then [.allClear] else [.problems errors, .blank]).filterMap
      Line.finding? = [] := by
    split <;> rfl
  rw [page, List.filterMap_append, htitle, List.nil_append, List.filterMap_flatMap,
    List.map_flatMap]
  refine congrArg (groups.flatMap ·) (funext fun g => ?_)
  rw [fileLines, List.filterMap_cons, List.filterMap_flatMap]
  simp only [filterMap_finding?_entry]
  exact List.flatMap_pure_eq_map _ _

end StyleAudit.Report
