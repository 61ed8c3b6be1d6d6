import StyleAudit.Proofs.Report.Page

/-!
# The numbers at the end of the report for a person

The summary tells how many diagnostics there are of each severity, the worst first, and leaves out
severities without one.  So a number is found by the name that stands behind it: the summary is cut
at its commas, and of the piece with the name in it the digits are read (`countIn`).  A severity
that is not named has no diagnostics.

Nothing in the summary comes from a stylesheet, and it is the last line whatever stands above it.
So, unlike the other lines, it can be read in every report.

* `readCounts_human` --- the numbers of the summary are read as the counts of the report;
* `readPage_human` --- of legible diagnostics the lines above it are read as what they are.
-/

namespace StyleAudit.Report

open Text

/-! ## The summary -/

/-- What is counted, the worst first. -/
def tallies (c : Counts) : List (Severity × Nat) :=
  [(.error, c.error), (.warning, c.warning), (.info, c.info)].filter fun t => 0 < t.2

/-- A number of errors, of warnings or of pieces of information, these without a plural. -/
def tallyText (t : Severity × Nat) : Text :=
  (toString t.2).toList ++
    ' ' :: (t.1.name.toList ++ if t.1 = .info ∨ t.2 = 1 then [] else ['s'])

/-- Numbers with commas between them, each in the colour of its severity. -/
def tallyStretches : List (Severity × Nat) → List Stretch
  | [] => []
  | [t] => [⟨some (severityColor t.1).toList, tallyText t⟩]
  | t :: u :: ts =>
    ⟨some (severityColor t.1).toList, tallyText t⟩ :: ⟨none, [',', ' ']⟩ :: tallyStretches (u :: ts)

/-- The numbers of the summary. -/
def countStretches (c : Counts) : List Stretch :=
  if c.total = 0 then [⟨some "32".toList, '0' :: ' ' :: "problems".toList⟩]
  else tallyStretches (tallies c)

/-- What stands behind the numbers. -/
def summaryTail (r : Report) : Text :=
  " in ".toList ++ ((toString r.files).toList ++
    (" files (".toList ++ ((secondsText r.elapsed).toList ++ "s)".toList)))

/-- What the summary consists of. -/
def summaryStretches (r : Report) : List Stretch :=
  ⟨none, "📊 ".toList⟩ :: ⟨some "1".toList, "Summary:".toList⟩ :: ⟨none, " ".toList⟩ ::
    (countStretches r.counts ++ [⟨none, summaryTail r⟩])

/-- The summary as it is written, without the line feed behind it. -/
def summaryRow (v : View) (r : Report) : Text :=
  (summaryStretches r).flatMap (Stretch.written v.colors)

theorem toList_intercalate_paint (v : View) (ts : List (Severity × Nat)) :
    (", ".intercalate
      (ts.map fun t => v.paint (severityColor t.1) (String.ofList (tallyText t)))).toList =
      (tallyStretches ts).flatMap (Stretch.written v.colors) := by
  fun_induction tallyStretches ts with
  | case1 => rfl
  | case2 t =>
    rw [List.map_singleton, String.intercalate_singleton, toList_paint, String.toList_ofList,
      List.flatMap_singleton]
  | case3 t u ts ih =>
    rw [List.map_cons] at ih
    rw [List.map_cons, List.map_cons, String.intercalate_cons_cons, String.toList_append,
      String.toList_append, ih, toList_paint, String.toList_ofList, List.flatMap_cons,
      List.flatMap_cons, List.append_assoc]
    rfl

theorem ofList_tallyText_info (n : Nat) :
    String.ofList (tallyText (.info, n)) = toString n ++ " info" :=
  String.toList_injective (by simp [tallyText, Severity.name])

theorem ofList_tallyText {s : Severity} (h : s ≠ .info) (n : Nat) :
    String.ofList (tallyText (s, n)) = countText n s.name := by
  refine String.toList_injective ?_
  by_cases hn : n = 1 <;> simp [tallyText, countText, h, hn]

theorem map_filter_cons {α β : Type} (p : α → Bool) (f : α → β) (a : α) (as : List α) :
    ((a :: as).filter p).map f = (if p a then [f a] else []) ++ (as.filter p).map f := by
  rw [List.filter_cons]
  split <;> rfl

theorem toList_countsText (v : View) (c : Counts) :
    (countsText v c).toList = (countStretches c).flatMap (Stretch.written v.colors) := by
  rw [countsText, countStretches]
  split
  · rw [toList_paint, List.flatMap_singleton]
    rfl
  · have herror := ofList_tallyText (s := .error) (by decide) c.error
    have hwarning := ofList_tallyText (s := .warning) (by decide) c.warning
    rw [← toList_intercalate_paint, tallies, map_filter_cons, map_filter_cons, map_filter_cons,
      List.filter_nil, List.map_nil, herror, hwarning, ofList_tallyText_info, List.append_nil,
      List.append_assoc]
    simp only [decide_eq_true_eq]
    rfl

theorem toList_summaryText (v : View) (r : Report) :
    (summaryText v r).toList = summaryRow v r ++ ['\n'] := by
  have hend : "s)\n".toList = "s)".toList ++ ['\n'] := rfl
  rw [summaryText, String.toList_append, String.toList_append, String.toList_append,
    String.toList_append, String.toList_append, String.toList_append, String.toList_append,
    String.toList_append, toList_paint, toList_countsText, hend, summaryRow, summaryStretches,
    List.flatMap_cons, List.flatMap_cons, List.flatMap_cons, List.flatMap_append,
    List.flatMap_singleton, Stretch.written_none, Stretch.written_none, Stretch.written_none,
    summaryTail]
  simp only [List.append_assoc]

/-! ## The summary is one line without commas of its own -/

/-- The characters of the numbers and of what stands behind them. -/
def isSummaryChar (c : Char) : Bool := c.isAlphanum || " (.)".toList.contains c

theorem notMem_of_all {t : Text} (h : t.all isSummaryChar = true) {c : Char}
    (hc : isSummaryChar c = false) : c ∉ t :=
  fun hmem => Bool.noConfusion (hc.symm.trans (List.all_eq_true.mp h c hmem))

theorem all_number (n : Nat) : (toString n).toList.all isSummaryChar = true := by
  refine List.all_eq_true.mpr fun c hc => Bool.or_eq_true_iff.mpr (.inl ?_)
  exact Bool.or_eq_true_iff.mpr (.inr (isDigit_of_mem_number n c hc))

theorem all_tallyText (t : Severity × Nat) : (tallyText t).all isSummaryChar = true := by
  have hname : t.1.name.toList.all isSummaryChar = true := by
    cases t.1 <;> decide
  have hplural : (if t.1 = .info ∨ t.2 = 1 then [] else ['s']).all isSummaryChar = true := by
    split <;> decide
  rw [tallyText, List.all_append, List.all_cons, List.all_append, all_number, hname, hplural]
  decide

theorem all_summaryTail (r : Report) : (summaryTail r).all isSummaryChar = true := by
  have hseconds : (secondsText r.elapsed).toList.all isSummaryChar = true := by
    rw [secondsText, String.toList_append, String.toList_append, List.all_append, List.all_append,
      all_number, all_number]
    decide
  rw [summaryTail, List.all_append, List.all_append, List.all_append, List.all_append, all_number,
    hseconds]
  decide

theorem clean_of_all {t : Text} (h : t.all isSummaryChar = true) : Clean t :=
  ⟨notMem_of_all h (by decide), notMem_of_all h (by decide)⟩

theorem severityColor_mem (s : Severity) : (severityColor s).toList ∈ colorCodes := by
  cases s <;> decide

theorem tidy_tallyStretches (ts : List (Severity × Nat)) : ∀ s ∈ tallyStretches ts, s.Tidy := by
  fun_induction tallyStretches ts with
  | case1 => exact List.forall_mem_nil _
  | case2 t =>
    exact List.forall_mem_singleton.mpr (.colored (severityColor_mem t.1) (clean_of_all (all_tallyText t)))
  | case3 t u ts ih =>
    refine List.forall_mem_cons.mpr ⟨.colored (severityColor_mem t.1) (clean_of_all (all_tallyText t)), ?_⟩
    exact List.forall_mem_cons.mpr ⟨by decide, ih⟩

theorem tidy_summaryStretches (r : Report) : ∀ s ∈ summaryStretches r, s.Tidy := by
  have hcounts : ∀ s ∈ countStretches r.counts, s.Tidy := by
    unfold countStretches
    split
    · decide
    · exact tidy_tallyStretches _
  refine List.forall_mem_cons.mpr ⟨by decide, List.forall_mem_cons.mpr ⟨by decide,
    List.forall_mem_cons.mpr ⟨by decide, List.forall_mem_append.mpr ⟨hcounts, ?_⟩⟩⟩⟩
  exact List.forall_mem_singleton.mpr (.plain (clean_of_all (all_summaryTail r)))

/-! ## Reading the numbers -/

/-- The number in front of the name of a severity, if the digits of a piece have it behind them. -/
def readCount? (s : Severity) (piece : Text) : Option Nat :=
  let t := piece.dropWhile fun c => !c.isDigit
  if (' ' :: s.name.toList).isPrefixOf (t.dropWhile Char.isDigit) then
    some (numberOf (t.takeWhile Char.isDigit))
  else none

/-- The number of diagnostics of a severity, in a line that is cut at its commas. -/
def countIn (s : Severity) (t : Text) : Nat := ((splitOn ',' t).findSome? (readCount? s)).getD 0

/-- The numbers in the last line of a text. -/
def readCounts (t : Text) : Counts :=
  let row := bare ((splitLines t).dropLast.getLast?.getD [])
  { error := countIn .error row, warning := countIn .warning row, info := countIn .info row }

/-- The first digits of a piece are read. -/
theorem readCount?_append {lead : Text} (hlead : lead.all (!·.isDigit) = true) (s : Severity)
    (n : Nat) (t : Text) : readCount? s (lead ++ ((toString n).toList ++ ' ' :: t)) =
      if s.name.toList.isPrefixOf t then some n else none := by
  have hends : ∀ c ∈ (' ' :: t).head?, c.isDigit = false := fun c hc => by
    cases hc
    decide
  have hfront : (lead ++ ((toString n).toList ++ ' ' :: t)).dropWhile (fun c => !c.isDigit) =
      (toString n).toList ++ ' ' :: t := by
    rw [List.dropWhile_append_of_pos (List.all_eq_true.mp hlead)]
    obtain ⟨d, ds, hnumber, hd⟩ := exists_number_eq_cons n
    rw [hnumber]
    exact List.dropWhile_cons_of_neg (by rw [hd]; decide)
  have hbehind : ((toString n).toList ++ ' ' :: t).dropWhile Char.isDigit = ' ' :: t := by
    rw [List.dropWhile_append_of_pos (isDigit_of_mem_number n)]
    exact List.dropWhile_cons_of_neg (by decide)
  simp only [readCount?, hfront, hbehind, takeWhile_number n hends, numberOf_number,
    List.isPrefixOf_cons_cons, beq_self_eq_true, Bool.true_and]

/-- A name of a severity is the beginning of no other. -/
theorem isPrefixOf_name_append (s s' : Severity) (t : Text) :
    s.name.toList.isPrefixOf (s'.name.toList ++ t) = (s == s') := by
  cases s <;> cases s' <;> rfl

/-- The number of a severity is read as its own. -/
theorem readCount?_tallyText {lead : Text} (hlead : lead.all (!·.isDigit) = true) (s : Severity)
    (t : Severity × Nat) (u : Text) :
    readCount? s (lead ++ (tallyText t ++ u)) = if s == t.1 then some t.2 else none := by
  rw [tallyText, List.append_assoc, List.cons_append, List.append_assoc, readCount?_append hlead,
    isPrefixOf_name_append]

theorem countIn_of_notMem {p : Text} (h : ',' ∉ p) (s : Severity) :
    countIn s p = (readCount? s p).getD 0 := by
  rw [countIn, splitOn_of_notMem h, List.findSome?_singleton]

theorem countIn_append_cons {p : Text} (h : ',' ∉ p) (s : Severity) (t : Text) :
    countIn s (p ++ ',' :: t) = (readCount? s p).getD (countIn s t) := by
  rw [countIn, splitOn_append_cons h, List.findSome?_cons]
  cases readCount? s p <;> rfl

/-- **Every number is found by its severity**; a severity that is not there has none. -/
theorem countIn_tallyStretches {ts : List (Severity × Nat)} (hne : ts ≠ []) {lead tail : Text}
    (hlead : lead.all (!·.isDigit) = true) (hcomma : ',' ∉ lead) (htail : ',' ∉ tail)
    (s : Severity) :
    countIn s (lead ++ ((tallyStretches ts).flatMap Stretch.text ++ tail)) =
      (ts.lookup s).getD 0 := by
  have htally : ∀ t, ',' ∉ tallyText t := fun t => notMem_of_all (all_tallyText t) (by decide)
  fun_induction tallyStretches ts generalizing lead with
  | case1 => exact absurd rfl hne
  | case2 t =>
    have hpiece : ',' ∉ lead ++ (tallyText t ++ tail) := by
      rw [List.mem_append, List.mem_append]
      rintro (h | h | h)
      · exact hcomma h
      · exact htally t h
      · exact htail h
    rw [List.flatMap_singleton, countIn_of_notMem hpiece,
      readCount?_tallyText hlead, List.lookup_cons]
    cases s == t.1 <;> rfl
  | case3 t u ts ih =>
    have hpiece : ',' ∉ lead ++ (tallyText t ++ []) := by
      rw [List.append_nil, List.mem_append]
      rintro (h | h)
      · exact hcomma h
      · exact htally t h
    have hrest := @ih (List.cons_ne_nil u ts) [' '] (by decide) (by decide)
    have hsplit : lead ++ ((Stretch.mk (some (severityColor t.1).toList) (tallyText t) ::
        ⟨none, [',', ' ']⟩ :: tallyStretches (u :: ts)).flatMap Stretch.text ++ tail) =
        (lead ++ (tallyText t ++ [])) ++
          ',' :: ([' '] ++ ((tallyStretches (u :: ts)).flatMap Stretch.text ++ tail)) := by
      simp
    rw [hsplit, countIn_append_cons hpiece, readCount?_tallyText hlead,
      List.lookup_cons, hrest]
    cases s == t.1 <;> rfl

/-! ## The counts of a report -/

theorem lookup_filter_cons (s : Severity) (t : Severity × Nat) (ts : List (Severity × Nat)) :
    ((t :: ts).filter fun t => 0 < t.2).lookup s =
      if 0 < t.2 ∧ s = t.1 then some t.2 else (ts.filter fun t => 0 < t.2).lookup s := by
  by_cases hpos : 0 < t.2
  · rw [List.filter_cons_of_pos (by simpa using hpos), List.lookup_cons]
    by_cases hs : s = t.1
    · rw [if_pos ⟨hpos, hs⟩, beq_iff_eq.mpr hs]
    · rw [if_neg fun h => hs h.2, beq_eq_false_iff_ne.mpr hs]
  · rw [List.filter_cons_of_neg (by simpa using hpos), if_neg fun h => hpos h.1]

/-- The numbers that are left out are zero. -/
theorem lookup_tallies (c : Counts) :
    ((tallies c).lookup .error).getD 0 = c.error ∧
      ((tallies c).lookup .warning).getD 0 = c.warning ∧
      ((tallies c).lookup .info).getD 0 = c.info := by
  have hzero : ∀ n : Nat, (if 0 < n then some n else none).getD 0 = n := by
    intro n
    split
    · rfl
    · exact (Nat.eq_zero_of_not_pos ‹_›).symm
  simp [tallies, lookup_filter_cons, hzero]

theorem tallies_eq_nil_iff (c : Counts) : tallies c = [] ↔ c.total = 0 := by
  rw [tallies, List.filter_eq_nil_iff, Counts.total]
  simp
  omega

theorem bare_summaryRow (v : View) (r : Report) : bare (summaryRow v r) =
    "📊 Summary: ".toList ++ ((countStretches r.counts).flatMap Stretch.text ++ summaryTail r) := by
  rw [summaryRow, bare_flatMap_written (tidy_summaryStretches r), summaryStretches,
    List.flatMap_cons, List.flatMap_cons, List.flatMap_cons, List.flatMap_append,
    List.flatMap_singleton, ← List.append_assoc, ← List.append_assoc]
  rfl

theorem countIn_bare_summaryRow (v : View) (r : Report) (s : Severity) :
    countIn s (bare (summaryRow v r)) = ((tallies r.counts).lookup s).getD 0 := by
  have htail : ',' ∉ summaryTail r := notMem_of_all (all_summaryTail r) (by decide)
  have hlead : "📊 Summary: ".toList.all (!·.isDigit) = true := by decide
  rw [bare_summaryRow, countStretches]
  split
  next hnone =>
    have hpiece : ',' ∉ "📊 Summary: ".toList ++
        ((toString 0).toList ++ ' ' :: ("problems".toList ++ summaryTail r)) := by
      rw [← List.cons_append, ← List.append_assoc, ← List.append_assoc, List.mem_append]
      exact fun h => h.elim (by decide) htail
    have hzero : Stretch.text ⟨some "32".toList, '0' :: ' ' :: "problems".toList⟩ =
        (toString 0).toList ++ ' ' :: "problems".toList := rfl
    rw [(tallies_eq_nil_iff _).mpr hnone, List.flatMap_singleton, hzero, List.append_assoc,
      List.cons_append, countIn_of_notMem hpiece, readCount?_append hlead]
    cases s <;> rfl
  next hsome =>
    exact countIn_tallyStretches (mt (tallies_eq_nil_iff _).mp hsome) hlead (by decide) htail s

/-- The summary is the last line, whatever stands above it. -/
theorem getLast?_splitLines_human (v : View) (r : Report) :
    (splitLines (human v r).toList).dropLast.getLast? = some (summaryRow v r) := by
  have hpage : ∃ front last, page v r.hasErrors (groupByFile (v.shown r)) = front ++ [last] := by
    refine (List.eq_nil_or_concat' _).resolve_left fun h => ?_
    rw [page] at h
    have htitle := (List.append_eq_nil_iff.mp h).1
    split at htitle <;> cases htitle
  obtain ⟨front, last, hpage⟩ := hpage
  have hrow : '\n' ∉ summaryRow v r := notMem_flatMap_written (tidy_summaryStretches r)
  have htext : (human v r).toList = (writtenLines v.colors front ++ last.written v.colors) ++
      '\n' :: (summaryRow v r ++ '\n' :: []) := by
    rw [toList_human, toList_summaryText, hpage, writtenLines_append, writtenLines_cons]
    simp [writtenLines]
  rw [htext, splitLines, splitOn_append_cons_append, splitOn_append_cons hrow]
  show (_ ++ ([summaryRow v r] ++ [[]])).dropLast.getLast? = _
  rw [← List.append_assoc, List.dropLast_concat, List.getLast?_concat]

/-- **The numbers of the summary are read as the counts of the report**, whatever is shown. -/
theorem readCounts_human (v : View) (r : Report) : readCounts (human v r).toList = r.counts := by
  obtain ⟨herror, hwarning, hinfo⟩ := lookup_tallies r.counts
  rw [readCounts, getLast?_splitLines_human, Option.getD_some]
  simp only [countIn_bare_summaryRow, herror, hwarning, hinfo]

/-- **Of legible diagnostics the lines above the summary are read as what they are.** -/
theorem readPage_human {v : View} {r : Report} (h : ∀ d ∈ v.shown r, Legible v d) :
    readPage (human v r).toList =
      (page v r.hasErrors (groupByFile (v.shown r))).map some := by
  rw [toList_human, toList_summaryText]
  exact readPage_writtenLines (legible_page (isGrouping_groupByFile _) h _) _
    (notMem_flatMap_written (tidy_summaryStretches r))

end StyleAudit.Report
