import StyleAudit.Proofs.Css.Faults
import StyleAudit.Proofs.Css.Reparse
import StyleAudit.Proofs.Css.Slices
import StyleAudit.Proofs.Text.Trim

/-!
# Where rules stand in a stylesheet

A rule keeps its selector or condition and the inside of its block as texts, and two lines as
numbers.  Here these are traced back to the stylesheet.  Every rule has a stretch of it (`Span`),
and no two of these stretches overlap.  In the stretch of a rule there is first what the rule keeps
of its head and then, behind an opening brace, what it keeps of its block; and the lines are the
numbers of line ends in front of the stretch and in front of the block (`Rule.StandsIn`).

The reader works on lexemes, and all of this is said of lexemes first.  What is left of the lexemes
of a text has a number of characters in front of it (`offset`).  Taking lexemes away only moves that
number on (`offset_le`), and the line with it (`line_placeOf_le`).  So it is enough to know in which
order the reader passes things: where a rule begins, where its block begins, what is left behind it
(`restAt`), and that the next rule begins no earlier than that (`pairwise_ruleStarts`).

An issue has no text, but it does have a line.  The point where its fault shows lies between the
beginning of the rule and what is left behind it (`restAt_suffix_of_ruleFault?`), so the lines of
the whole list go up, issues included.  The main result is `exists_spans_parseStylesheet`.
-/

namespace StyleAudit.Css

/-! ## Stretches of a text -/

/-- A stretch of a text, by the numbers of characters in front of its two ends. -/
structure Span where
  start : Nat
  stop : Nat
  deriving DecidableEq, Repr

/-- The text has the stretch, and `u` stands there. -/
structure Span.Holds (s : Span) (t u : Text) : Prop where
  ordered : s.start ≤ s.stop
  within : s.stop ≤ t.length
  text_eq : (t.take s.stop).drop s.start = u

/-- What stands between two texts has a stretch. -/
theorem Span.holds_append (front u back : Text) :
    (⟨front.length, front.length + u.length⟩ : Span).Holds (front ++ (u ++ back)) u where
  ordered := Nat.le_add_right _ _
  within := by
    simp only [List.length_append]
    omega
  text_eq := by
    show List.drop front.length (List.take (front.length + u.length) (front ++ (u ++ back))) = u
    rw [List.take_length_add_append, List.drop_left, List.take_left]

/-- A part of what stands in a stretch has a stretch within it. -/
theorem Span.Holds.exists_infix {s : Span} {t u v : Text} (h : s.Holds t u) (hv : v <:+: u) :
    ∃ s' : Span, s'.Holds t v ∧ s.start ≤ s'.start ∧ s'.stop ≤ s.stop := by
  obtain ⟨lead, trail, hu⟩ := hv
  have hfront : (t.take s.stop).take s.start ++ u = t.take s.stop := by
    rw [← h.text_eq, List.take_append_drop]
  have hstart : ((t.take s.stop).take s.start).length = s.start := by
    rw [List.length_take, List.length_take, Nat.min_eq_left h.within, Nat.min_eq_left h.ordered]
  have hstop : s.start + u.length = s.stop := by
    have hlength := congrArg List.length hfront
    rwa [List.length_append, hstart, List.length_take, Nat.min_eq_left h.within] at hlength
  generalize (t.take s.stop).take s.start = front at hfront hstart
  have hwhole : (front ++ lead) ++ (v ++ (trail ++ t.drop s.stop)) = t := by
    calc (front ++ lead) ++ (v ++ (trail ++ t.drop s.stop))
        = (front ++ u) ++ t.drop s.stop := by simp only [← hu, List.append_assoc]
      _ = t := by rw [hfront, List.take_append_drop]
  have hlength := congrArg List.length hu
  simp only [List.length_append] at hlength
  refine ⟨_, hwhole ▸ Span.holds_append (front ++ lead) v (trail ++ t.drop s.stop), ?_, ?_⟩
  · show s.start ≤ (front ++ lead).length
    rw [List.length_append]
    omega
  · show (front ++ lead).length + v.length ≤ s.stop
    rw [List.length_append]
    omega

/-! ## In front of lexemes -/

/-- The number of characters of a text in front of its last lexemes. -/
def offset (t : Text) (ls : List Lexeme) : Nat := t.length - (Lexeme.sourceOf ls).length

section Offset

variable {t : Text} {ls : List Lexeme}

/-- The text in front of the last lexemes, and the place that they begin at. -/
theorem take_offset (h : ls <:+ lexemes t) :
    t.take (offset t ls) ++ Lexeme.sourceOf ls = t ∧
      placeOf (endPlace t) ls = Place.start.past (t.take (offset t ls)) := by
  obtain ⟨front, hfront, hplace⟩ := exists_front h
  have htake : t.take (offset t ls) = front := by
    rw [offset, ← hfront, List.length_append, Nat.add_sub_cancel, List.take_left]
  rw [htake]
  exact ⟨hfront, hplace⟩

theorem length_take_offset (t : Text) (ls : List Lexeme) :
    (t.take (offset t ls)).length = offset t ls := by
  exact List.length_take_of_le (Nat.sub_le _ _)

/-- The line that the last lexemes begin on. -/
theorem line_placeOf (h : ls <:+ lexemes t) :
    (placeOf (endPlace t) ls).line = 1 + lineEnds (t.take (offset t ls)) := by
  rw [(take_offset h).2, line_past_start]

theorem offset_le {ms : List Lexeme} (h : ms <:+ ls) : offset t ls ≤ offset t ms :=
  Nat.sub_le_sub_left (Lexeme.length_sourceOf_le h) _

/-- **Behind lexemes that are taken away the line is no earlier.** -/
theorem line_placeOf_le {ms : List Lexeme} (hms : ms <:+ ls) (hls : ls <:+ lexemes t) :
    (placeOf (endPlace t) ls).line ≤ (placeOf (endPlace t) ms).line := by
  have hprefix : t.take (offset t ls) <+: t.take (offset t ms) :=
    List.take_prefix_take_left (offset_le hms)
  obtain ⟨between, hbetween⟩ := hprefix
  rw [(take_offset hls).2, (take_offset (hms.trans hls)).2, ← hbetween, Place.past_append]
  exact Place.line_le_past _ _

/-- What a run of lexemes was read from has a stretch. -/
theorem holds_sourceOf {run rest : List Lexeme} (h : run ++ rest <:+ lexemes t) :
    (⟨offset t (run ++ rest), offset t rest⟩ : Span).Holds t (Lexeme.sourceOf run) := by
  have hfront := (take_offset h).1
  have hlength := congrArg List.length hfront
  rw [Lexeme.sourceOf_append] at hfront
  simp only [List.length_append, length_take_offset, Lexeme.sourceOf_append] at hlength
  have hrest : offset t rest = offset t (run ++ rest) + (Lexeme.sourceOf run).length := by
    rw [offset]
    omega
  have hholds := Span.holds_append (t.take (offset t (run ++ rest))) (Lexeme.sourceOf run)
    (Lexeme.sourceOf rest)
  rwa [hfront, length_take_offset, ← hrest] at hholds

end Offset

/-! ## Heads and blocks -/

section Parts

variable {t : Text}

/-- What is kept of a head stands in front of what is left behind the head. -/
theorem exists_span_head (stop : Token → Bool) {ls : List Lexeme} (hls : ls <:+ lexemes t) :
    ∃ head : Span, head.Holds t (Text.trim (Lexeme.sourceOf (valuesUntil stop [] ls).1)) ∧
      offset t ls ≤ head.start ∧ head.stop ≤ offset t (valuesUntil stop [] ls).2 := by
  have happend := valuesUntil_append stop [] ls
  have hholds := holds_sourceOf (t := t) (happend.symm ▸ hls)
  obtain ⟨head, hhead, hstart, hstop⟩ := hholds.exists_infix (Text.trim_infix _)
  rw [happend] at hstart
  exact ⟨head, hhead, hstart, hstop⟩

/-- What is kept of a block stands behind its brace, in front of what is left behind the block. -/
theorem exists_span_block {brace : Lexeme} {rest : List Lexeme}
    (h : brace :: rest <:+ lexemes t) (hopens : opensBlock brace.token = true) :
    ∃ block : Span, block.Holds t (blockAhead rest).1 ∧ block.start = offset t rest ∧
      block.stop ≤ offset t (blockAhead rest).2 ∧
        (t.take block.start).getLast? = some '\x7b' := by
  have hrest : rest <:+ lexemes t := (List.suffix_cons brace rest).trans h
  have happend := valuesUntil_append (· == .closing .curly) [] rest
  have hholds := holds_sourceOf (t := t) (happend.symm ▸ hrest)
  rw [happend] at hholds
  have hbehind : (blockAhead rest).2 <:+ (valuesUntil (· == .closing .curly) [] rest).2 :=
    (List.tail_suffix _).trans (skipBlanks_suffix _)
  obtain ⟨outer, houter, hlast, -⟩ := exists_front_of_opensBlock h hopens
  have hfront : t.take (offset t rest) = outer :=
    List.append_cancel_right ((take_offset hrest).1.trans houter.symm)
  exact ⟨_, hholds, rfl, offset_le hbehind, hfront ▸ hlast⟩

end Parts

/-! ## Where a rule ends -/

/-- What is left behind the rule that begins at the front of the lexemes. -/
def restAt (eof : Place) (ls : List Lexeme) : List Lexeme :=
  match ls with
  | ⟨.atKeyword keyword, _, start⟩ :: rest => (atRuleAhead keyword start.line rest).2
  | ls => (qualifiedAhead false eof ls).2

section RestAt

variable {eof : Place} {l : Lexeme} {ls : List Lexeme}

theorem restAt_of_atKeyword {keyword : Text} (h : l.token = .atKeyword keyword) :
    restAt eof (l :: ls) = (atRuleAhead keyword l.start.line ls).2 := by
  obtain ⟨token, text, start⟩ := l
  obtain rfl : token = .atKeyword keyword := h
  rfl

theorem restAt_of_qualified (h : ∀ keyword, l.token ≠ .atKeyword keyword) :
    restAt eof (l :: ls) = (qualifiedAhead false eof (l :: ls)).2 := by
  obtain ⟨token, text, start⟩ := l
  cases token with
  | atKeyword keyword => exact absurd rfl (h keyword)
  | _ => rfl

/-- A rule takes the lexeme that it begins with. -/
theorem restAt_suffix (eof : Place) (l : Lexeme) (ls : List Lexeme) :
    restAt eof (l :: ls) <:+ ls := by
  by_cases hsign : ∃ keyword, l.token = .atKeyword keyword
  · obtain ⟨keyword, hkeyword⟩ := hsign
    rw [restAt_of_atKeyword hkeyword]
    exact atRuleAhead_suffix keyword l.start.line ls
  · rw [restAt_of_qualified fun keyword hkeyword => hsign ⟨keyword, hkeyword⟩]
    exact qualifiedAhead_suffix false eof (l :: ls)

/-- **A rule begins no earlier than what is left behind the rules before it.** -/
theorem pairwise_ruleStarts (eof : Place) (first : Bool) (ls : List Lexeme) :
    (ruleStarts eof first ls).Pairwise fun start next => next <:+ restAt eof start := by
  fun_induction ruleStarts eof first ls with
  | case1 => exact List.Pairwise.nil
  | case2 first l ls hsep ih => exact ih
  | case3 first l ls hsep keyword hk hfirst ih => exact ih
  | case4 first l ls hsep keyword hk hfirst ih =>
    refine List.pairwise_cons.mpr ⟨fun next hnext => ?_, ih⟩
    rw [restAt_of_atKeyword hk]
    exact (ruleStarts_suffix hnext).2
  | case5 first l ls hsep hk ih =>
    refine List.pairwise_cons.mpr ⟨fun next hnext => ?_, ih⟩
    rw [restAt_of_qualified hk]
    exact (ruleStarts_suffix hnext).2

/-- The point where the fault of a rule shows is passed with the rule. -/
theorem restAt_suffix_of_ruleFault? (eof : Place) {point : List Lexeme}
    (h : ruleFault? (l :: ls) = some point) :
    restAt eof (l :: ls) <:+ point ∧ point <:+ l :: ls := by
  by_cases hsign : ∃ keyword, l.token = .atKeyword keyword
  · obtain ⟨keyword, hkeyword⟩ := hsign
    rw [ruleFault?_of_atKeyword hkeyword] at h
    cases h
  have hqualified : ∀ keyword, l.token ≠ .atKeyword keyword := fun keyword hkeyword =>
    hsign ⟨keyword, hkeyword⟩
  rw [ruleFault?_of_qualified hqualified, qualifiedFault?] at h
  rw [restAt_of_qualified hqualified]
  have hsuffix := qualifiedAhead_suffix false eof (l :: ls)
  have hhead := skipBlanks_valuesUntil_suffix opensBlock [] (l :: ls)
  simp only [qualifiedAhead, Bool.false_eq_true, if_false] at h hsuffix ⊢
  by_cases hcustom : customPropertyAhead (l :: ls) = true
  · rw [if_pos hcustom] at h hsuffix ⊢
    obtain rfl := Option.some.inj h
    exact ⟨hsuffix.trans (List.tail_suffix _), List.suffix_rfl⟩
  · rw [if_neg hcustom] at h ⊢
    cases hskip : skipBlanks (valuesUntil opensBlock [] (l :: ls)).2 with
    | nil =>
      rw [hskip] at h
      obtain rfl := Option.some.inj h
      exact ⟨List.nil_suffix, List.nil_suffix⟩
    | cons e rest =>
      rw [hskip] at h hhead
      by_cases hopens : opensBlock e.token = true
      · simp only [hopens, if_true, reduceCtorEq] at h
      · simp only [hopens, Bool.false_eq_true, if_false, Option.some.injEq] at h ⊢
        subst h
        exact ⟨List.suffix_cons e rest, hhead⟩

end RestAt

/-! ## The stretch of a rule -/

/-- The line of a rule, or of the issue in its place. -/
def Rule.line : Rule → Nat
  | .qualified rule => rule.line
  | .atRule rule => rule.line
  | .error issue => issue.line

/-- The line where the inside of the block of a qualified rule begins.  Other rules tell no such
line, and it is the one they have. -/
def Rule.bodyLine : Rule → Nat
  | .qualified rule => rule.bodyLine
  | rule => rule.line

/-- How the inside of the block of a rule stands in a stylesheet: right behind an opening brace, and
on the line that a qualified rule tells. -/
structure Rule.BlockStandsIn (rule : Rule) (t body : Text) (block : Span) : Prop where
  holds : block.Holds t body
  brace : (t.take block.start).getLast? = some '\x7b'
  line_eq : ∀ r, rule = .qualified r → r.bodyLine = 1 + lineEnds (t.take block.start)

/-- **How a rule stands in a stretch of a stylesheet.**  What it keeps of its head stands in it, and
behind that the inside of its block, if it has one. -/
structure Rule.StandsIn (rule : Rule) (t : Text) (span : Span) : Prop where
  nonempty : span.start < span.stop
  within : span.stop ≤ t.length
  line_eq : rule.line = 1 + lineEnds (t.take span.start)
  parts : ∃ (prelude : Text) (head : Span), rule.prelude? = some prelude ∧
    head.Holds t prelude ∧ span.start ≤ head.start ∧ head.stop ≤ span.stop ∧
      ∀ body ∈ rule.body?, ∃ block : Span, rule.BlockStandsIn t body block ∧
        head.stop ≤ block.start ∧ block.stop ≤ span.stop

section StandsIn

variable {t : Text} {l : Lexeme} {ls : List Lexeme}

/-- What begins with a lexeme takes up characters. -/
theorem lt_offset {rest : List Lexeme} (hs : l :: ls <:+ lexemes t) (hrest : rest <:+ ls) :
    offset t (l :: ls) < offset t rest := by
  have hpos := List.length_pos_iff.mpr
    (text_ne_nil_of_mem_lexemesFrom (hs.mem List.mem_cons_self))
  have hle := Lexeme.length_sourceOf_le hrest
  have hall := Lexeme.length_sourceOf_le hs
  rw [sourceOf_lexemes] at hall
  simp only [Lexeme.sourceOf_cons, List.length_append, offset] at hall ⊢
  omega

/-- An at-rule stands where it begins, its condition behind the keyword. -/
theorem standsIn_atRuleAhead (keyword : Text) (hs : l :: ls <:+ lexemes t) :
    (Rule.atRule (atRuleAhead keyword l.start.line ls).1).StandsIn t
      ⟨offset t (l :: ls), offset t (atRuleAhead keyword l.start.line ls).2⟩ := by
  have hls : ls <:+ lexemes t := (List.suffix_cons l ls).trans hs
  obtain ⟨head, hhead, hstart, hstop⟩ := exists_span_head endsHead hls
  have hbehind := (valuesUntil_suffix endsHead [] ls).trans hls
  have hline : l.start.line = 1 + lineEnds (t.take (offset t (l :: ls))) := line_placeOf hs
  have hfirst : offset t (l :: ls) ≤ offset t ls := offset_le (List.suffix_cons l ls)
  have hlt := lt_offset hs (atRuleAhead_suffix keyword l.start.line ls)
  rcases atRuleAhead_cases keyword l.start.line ls with
    ⟨brace, rest, hskip, hbrace, heq⟩ | ⟨-, heq⟩
  · rw [heq] at hlt ⊢
    have hopen : brace :: rest <:+ (valuesUntil endsHead [] ls).2 := hskip ▸ skipBlanks_suffix _
    obtain ⟨block, hblock, hbegin, hend, hlast⟩ :=
      exists_span_block (hopen.trans hbehind) (by rw [hbrace]; rfl)
    have hacross : head.stop ≤ block.start := by
      rw [hbegin]
      exact hstop.trans (offset_le ((List.suffix_cons brace rest).trans hopen))
    have hordered := hblock.ordered
    refine ⟨hlt, Nat.sub_le _ _, hline, _, head, rfl, hhead, hfirst.trans hstart, ?_, ?_⟩
    · show head.stop ≤ offset t (blockAhead rest).2
      omega
    · intro body hbody
      obtain rfl := Option.some.inj hbody
      exact ⟨block, ⟨hblock, hlast, fun r hr => nomatch hr⟩, hacross, hend⟩
  · rw [heq] at hlt ⊢
    have hrest : (skipBlanks (valuesUntil endsHead [] ls).2).tail <:+
        (valuesUntil endsHead [] ls).2 := (List.tail_suffix _).trans (skipBlanks_suffix _)
    exact ⟨hlt, Nat.sub_le _ _, hline, _, head, rfl, hhead, hfirst.trans hstart,
      hstop.trans (offset_le hrest), fun body hbody => nomatch hbody⟩

/-- The lines of a qualified rule are those where it begins and where its block does. -/
theorem lines_qualifiedAhead {eof : Place} {rule : QualifiedRule}
    (h : (qualifiedAhead false eof ls).1 = .ok rule) : rule.line = (placeOf eof ls).line ∧
      ∃ brace rest, skipBlanks (valuesUntil opensBlock [] ls).2 = brace :: rest ∧
        opensBlock brace.token = true ∧ rule.bodyLine = brace.stop.line := by
  obtain ⟨brace, rest, hskip, hopens, -, hline⟩ := body_qualifiedAhead h
  refine ⟨?_, brace, rest, hskip, hopens, hline⟩
  simp only [qualifiedAhead] at h
  split at h
  · cases h
  · split at h
    · cases h
    · split at h <;> cases h
      rfl

/-- A qualified rule stands where it begins, its selector first. -/
theorem standsIn_qualifiedAhead {rule : QualifiedRule} (hs : l :: ls <:+ lexemes t)
    (h : (qualifiedAhead false (endPlace t) (l :: ls)).1 = .ok rule) :
    (Rule.qualified rule).StandsIn t
      ⟨offset t (l :: ls), offset t (qualifiedAhead false (endPlace t) (l :: ls)).2⟩ := by
  obtain ⟨head, hhead, hstart, hstop⟩ := exists_span_head opensBlock hs
  obtain ⟨hline, brace, rest, hskip, hopens, hbodyLine⟩ := lines_qualifiedAhead h
  obtain ⟨-, brace', rest', hskip', -, hselector, hbody, hrest⟩ := qualifiedAhead_eq_ok h
  obtain ⟨rfl, rfl⟩ := List.cons.inj (hskip.symm.trans hskip')
  have hbrace : brace :: rest <:+ (valuesUntil opensBlock [] (l :: ls)).2 :=
    hskip ▸ skipBlanks_suffix _
  have hopen := hbrace.trans ((valuesUntil_suffix opensBlock [] (l :: ls)).trans hs)
  obtain ⟨block, hblock, hbegin, hend, hlast⟩ := exists_span_block hopen hopens
  have hacross : head.stop ≤ block.start := by
    rw [hbegin]
    exact hstop.trans (offset_le ((List.suffix_cons brace rest).trans hbrace))
  have hlt := lt_offset hs (qualifiedAhead_suffix false (endPlace t) (l :: ls))
  have hordered := hblock.ordered
  rw [hrest] at hlt ⊢
  rw [← hselector] at hhead
  rw [← hbody] at hblock
  refine ⟨hlt, Nat.sub_le _ _, hline.trans (line_placeOf hs), _, head, rfl, hhead, hstart, ?_, ?_⟩
  · show head.stop ≤ offset t (blockAhead rest).2
    omega
  · intro body hkept
    obtain rfl := Option.some.inj hkept
    refine ⟨block, ⟨hblock, hlast, fun r hr => ?_⟩, hacross, hend⟩
    obtain rfl := Rule.qualified.inj hr
    rw [hbodyLine, hbegin, stop_eq_placeOf hopen,
      line_placeOf ((List.suffix_cons brace rest).trans hopen)]

/-- **A rule stands between where it begins and what is left behind it.** -/
theorem standsIn_ruleAt (hs : l :: ls <:+ lexemes t)
    (hsound : (ruleAt (endPlace t) (l :: ls)).issue? = none) :
    (ruleAt (endPlace t) (l :: ls)).StandsIn t
      ⟨offset t (l :: ls), offset t (restAt (endPlace t) (l :: ls))⟩ := by
  by_cases hsign : ∃ keyword, l.token = .atKeyword keyword
  · obtain ⟨keyword, hkeyword⟩ := hsign
    rw [ruleAt_of_atKeyword hkeyword, restAt_of_atKeyword hkeyword]
    exact standsIn_atRuleAhead keyword hs
  · have hqualified : ∀ keyword, l.token ≠ .atKeyword keyword := fun keyword hkeyword =>
      hsign ⟨keyword, hkeyword⟩
    rw [ruleAt_of_qualified hqualified] at hsound ⊢
    rw [restAt_of_qualified hqualified]
    cases hresult : (qualifiedAhead false (endPlace t) (l :: ls)).1 with
    | ok rule => exact standsIn_qualifiedAhead hs hresult
    | error issue =>
      rw [hresult] at hsound
      cases hsound

/-! ## Lines go up -/

/-- **The lines of a rule are those of two points** that are passed one after the other with the
rule.  If there is an issue in its place, both are the point where the fault shows. -/
theorem exists_points_ruleAt (hs : l :: ls <:+ lexemes t) :
    ∃ first last : List Lexeme, first <:+ l :: ls ∧ last <:+ first ∧
      restAt (endPlace t) (l :: ls) <:+ last ∧
        (ruleAt (endPlace t) (l :: ls)).line = (placeOf (endPlace t) first).line ∧
          (ruleAt (endPlace t) (l :: ls)).bodyLine = (placeOf (endPlace t) last).line := by
  have hrest := (restAt_suffix (endPlace t) l ls).trans (List.suffix_cons l ls)
  by_cases hsign : ∃ keyword, l.token = .atKeyword keyword
  · obtain ⟨keyword, hkeyword⟩ := hsign
    rw [ruleAt_of_atKeyword hkeyword]
    have hline : (atRuleAhead keyword l.start.line ls).1.line = l.start.line := by
      rcases atRuleAhead_cases keyword l.start.line ls with ⟨_, _, -, -, heq⟩ | ⟨-, heq⟩ <;>
        rw [heq]
    exact ⟨_, _, List.suffix_rfl, List.suffix_rfl, hrest, hline, hline⟩
  · have hqualified : ∀ keyword, l.token ≠ .atKeyword keyword := fun keyword hkeyword =>
      hsign ⟨keyword, hkeyword⟩
    have hshows := showsAt_ruleAt hs
    rw [ruleAt_of_qualified hqualified] at hshows ⊢
    cases hresult : (qualifiedAhead false (endPlace t) (l :: ls)).1 with
    | ok rule =>
      obtain ⟨hline, brace, rest, hskip, -, hbodyLine⟩ := lines_qualifiedAhead hresult
      obtain ⟨-, brace', rest', hskip', -, -, -, hbehind⟩ := qualifiedAhead_eq_ok hresult
      obtain ⟨rfl, rfl⟩ := List.cons.inj (hskip.symm.trans hskip')
      have hbrace : brace :: rest <:+ l :: ls := by
        rw [← hskip]
        exact skipBlanks_valuesUntil_suffix opensBlock [] (l :: ls)
      rw [restAt_of_qualified hqualified, hbehind]
      exact ⟨_, rest, List.suffix_rfl, (List.suffix_cons brace rest).trans hbrace,
        blockAhead_suffix rest, hline,
        hbodyLine.trans (congrArg Place.line (stop_eq_placeOf (hbrace.trans hs)))⟩
    | error issue =>
      rw [hresult] at hshows
      generalize hpoint : ruleFault? (l :: ls) = point at hshows
      cases hshows with
      | fault hsuffix hline hcolumn =>
        obtain ⟨hpassed, hwithin⟩ := restAt_suffix_of_ruleFault? (endPlace t) hpoint
        exact ⟨_, _, hwithin, List.suffix_rfl, hpassed, hline, hline⟩

end StandsIn

/-- **The rules of a stylesheet stand in stretches of it, one behind the other**, and their lines
are counted there.  So the lines go up through the whole list: from that of a rule to that of its
block and on to that of the next rule, issues included. -/
theorem exists_spans_parseStylesheet (t : Text) :
    (∃ spans : List Span,
      List.Forall₂ (fun rule span => rule.StandsIn t span)
        ((parseStylesheet t).filter fun rule => rule.issue?.isNone) spans ∧
      spans.Pairwise fun span next => span.stop ≤ next.start) ∧
    (∀ rule ∈ parseStylesheet t, rule.line ≤ rule.bodyLine) ∧
      (parseStylesheet t).Pairwise fun rule next => rule.bodyLine ≤ next.line := by
  have hstarts : ∀ s ∈ ruleStarts (endPlace t) true (lexemes t),
      ∃ l ls, s = l :: ls ∧ l :: ls <:+ lexemes t := by
    intro s hs
    obtain ⟨hne, hsuffix⟩ := ruleStarts_suffix hs
    obtain ⟨l, ls, rfl⟩ := List.exists_cons_of_ne_nil hne
    exact ⟨l, ls, rfl, hsuffix⟩
  have hordered := pairwise_ruleStarts (endPlace t) true (lexemes t)
  rw [parseStylesheet, rulesFrom_eq_map]
  generalize ruleStarts (endPlace t) true (lexemes t) = starts at hstarts hordered
  refine ⟨⟨(starts.filter fun s => (ruleAt (endPlace t) s).issue?.isNone).map fun s =>
    ⟨offset t s, offset t (restAt (endPlace t) s)⟩, ?_, ?_⟩, ?_, ?_⟩
  · rw [List.filter_map, List.forall₂_map_left_iff, List.forall₂_map_right_iff]
    refine List.forall₂_same.mpr fun s hs => ?_
    obtain ⟨hmem, hsound⟩ := List.mem_filter.mp hs
    obtain ⟨l, ls, rfl, hsuffix⟩ := hstarts s hmem
    exact standsIn_ruleAt hsuffix (Option.isNone_iff_eq_none.mp hsound)
  · rw [List.pairwise_map]
    exact (hordered.filter _).imp fun hnext => offset_le hnext
  · intro rule hrule
    obtain ⟨s, hs, rfl⟩ := List.mem_map.mp hrule
    obtain ⟨l, ls, rfl, hsuffix⟩ := hstarts s hs
    obtain ⟨first, last, hfirst, hlast, -, hline, hbodyLine⟩ := exists_points_ruleAt hsuffix
    rw [hline, hbodyLine]
    exact line_placeOf_le hlast (hfirst.trans hsuffix)
  · rw [List.pairwise_map]
    refine hordered.imp_of_mem fun {s next} hs hnext hbehind => ?_
    obtain ⟨l, ls, rfl, hsuffix⟩ := hstarts s hs
    obtain ⟨l', ls', rfl, hsuffix'⟩ := hstarts next hnext
    obtain ⟨first, last, hfirst, hlast, hrest, -, hbodyLine⟩ := exists_points_ruleAt hsuffix
    obtain ⟨first', _, hfirst', -, -, hline, -⟩ := exists_points_ruleAt hsuffix'
    rw [hbodyLine, hline]
    exact line_placeOf_le (hfirst'.trans (hbehind.trans hrest))
      (hlast.trans (hfirst.trans hsuffix))

example : (parseStylesheet "@charset \"x\";\r\n<!-- a,\rb\x7bc:d\x7d\x0c@e\n\x7b\x7d f".toList).map
    (fun rule => (rule.line, rule.bodyLine)) = [(2, 3), (4, 4), (5, 5)] := by
  decide +kernel

end StyleAudit.Css
