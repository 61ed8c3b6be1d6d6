import StyleAudit.Proofs.Css.Marks
import StyleAudit.Proofs.Css.Stripping

/-!
# Compounds, and the fragments that stand for them

A selector is made of compounds, with white space, commas and combinators between them.  Read by
its tokens it falls into parts (`Part`): what stands between compounds, pseudo-classes with all
their arguments, and anything else, where a bracket is one part with all it holds.  The *compounds*
of the selector are the stretches between the gaps, without the pseudo-classes in them
(`compounds`).

`fragments (stripPseudo s)` is meant to be the same and looks at characters only.  It cannot tell a
blank inside a string from one between compounds, the parenthesis that closes the arguments from one
inside them, or an escaped colon from one that begins a pseudo-class.  So the two differ as soon as
a part holds a character that means something else elsewhere.  Selectors without such parts are
*plain* (`IsPlain`), and for them the two agree.

* `Spells`, `spells_parts` --- a selector as its parts, each fit for what stands behind it;
* `fragments_stripPseudo_of_isPlain` --- the fragments of a plain selector are its compounds.
-/

namespace StyleAudit.Css

/-! ## Parts of a selector -/

/-- What a selector is made of. -/
inductive Part where
  /-- White space, a comma or a combinator. -/
  | gap (text : Text)
  /-- A pseudo-class or a pseudo-element: its colons, its name, and its arguments with the
  parentheses around them. -/
  | pseudo (colons name arguments : Text)
  /-- Any other token; a bracket with all that it holds. -/
  | simple (text : Text)
  deriving DecidableEq, Repr

namespace Part

/-- Whether the part stands between compounds. -/
def isGap : Part → Bool
  | gap _ => true
  | _ => false

/-- The text that the part was read from. -/
def source : Part → Text
  | gap text | simple text => text
  | pseudo colons name arguments => colons ++ name ++ arguments

/-- What the part is in a selector without pseudo-classes. -/
def kept : Part → Text
  | gap text | simple text => text
  | pseudo _ _ _ => []

end Part

/-- Whether the token stands between compounds. -/
def Token.isGap : Token → Bool
  | space | comma => true
  | delim c => c == '>' || c == '+' || c == '~'
  | _ => false

/-- What open brackets hold, up to where all of them have closed, and what is left. -/
def closeAhead (stack : List Bracket) (ls : List Lexeme) : List Lexeme × List Lexeme :=
  valuesUntil (fun _ => true) stack ls

/-- The pseudo-class whose colons have been read, and what is left behind it. -/
def namedAhead? (colons : Text) : List Lexeme → Option (Part × List Lexeme)
  | [] => none
  | l :: ls =>
    match l.token with
    | .ident _ => some (.pseudo colons l.text [], ls)
    | .function _ =>
      let r := closeAhead [.round] ls
      some (.pseudo colons l.text.dropLast ('(' :: Lexeme.sourceOf r.1), r.2)
    | _ => none

/-- The pseudo-class at the front of the lexemes, and what is left behind it. -/
def pseudoAhead? : List Lexeme → Option (Part × List Lexeme)
  | l :: m :: ls =>
    if l.token = .colon then
      if m.token = .colon then namedAhead? [':', ':'] ls else namedAhead? [':'] (m :: ls)
    else none
  | _ => none

/-- The part at the front of the lexemes, and what is left behind it. -/
def partAhead (l : Lexeme) (ls : List Lexeme) : Part × List Lexeme :=
  if l.token.isGap then (.gap l.text, ls)
  else
    match pseudoAhead? (l :: ls) with
    | some r => r
    | none =>
      let r := closeAhead (l.token.nesting []) ls
      (.simple (l.text ++ Lexeme.sourceOf r.1), r.2)

theorem closeAhead_suffix (stack : List Bracket) (ls : List Lexeme) :
    (closeAhead stack ls).2 <:+ ls := valuesUntil_suffix _ _ _

theorem sourceOf_closeAhead (stack : List Bracket) (ls : List Lexeme) :
    Lexeme.sourceOf (closeAhead stack ls).1 ++ Lexeme.sourceOf (closeAhead stack ls).2 =
      Lexeme.sourceOf ls := by
  rw [← Lexeme.sourceOf_append, closeAhead, valuesUntil_append]

theorem namedAhead?_suffix {colons : Text} {ls : List Lexeme} {r : Part × List Lexeme}
    (h : namedAhead? colons ls = some r) : r.2 <:+ ls.tail := by
  cases ls with
  | nil => cases h
  | cons l ls =>
    rw [namedAhead?] at h
    split at h
    · cases h
      exact List.suffix_rfl
    · cases h
      exact closeAhead_suffix _ _
    · cases h

theorem pseudoAhead?_suffix {ls : List Lexeme} {r : Part × List Lexeme}
    (h : pseudoAhead? ls = some r) : r.2 <:+ ls.tail := by
  unfold pseudoAhead? at h
  split at h
  next l m ls =>
    split at h
    · split at h
      · exact (namedAhead?_suffix h).trans ((List.tail_suffix _).trans (List.suffix_cons _ _))
      · exact (namedAhead?_suffix h).trans (List.suffix_cons _ _)
    · cases h
  next => cases h

theorem partAhead_suffix (l : Lexeme) (ls : List Lexeme) : (partAhead l ls).2 <:+ ls := by
  unfold partAhead
  split
  · exact List.suffix_rfl
  · split
    next hr => exact pseudoAhead?_suffix hr
    next => exact closeAhead_suffix _ _

/-- The parts that a list of lexemes falls into. -/
def partsFrom : List Lexeme → List Part
  | [] => []
  | l :: ls => (partAhead l ls).1 :: partsFrom (partAhead l ls).2
termination_by ls => ls.length
decreasing_by
  have := (partAhead_suffix l ls).length_le
  simp only [List.length_cons]
  omega

/-- The parts of a selector. -/
def parts (selector : Text) : List Part := partsFrom (pieces selector)

/-- The compounds in a list of parts: the stretches between the gaps, without the pseudo-classes.
A stretch of pseudo-classes alone is none. -/
def compoundsOf (ps : List Part) : List Text :=
  ((ps.splitOnP Part.isGap).map (·.flatMap Part.kept)).filter (· ≠ [])

/-- The compounds of a selector, in order. -/
def compounds (selector : Text) : List Text := compoundsOf (parts selector)

/-! ## Parts and the text behind them -/

/-- What is known of a part and the text behind it. -/
def Part.Fits (rest : Text) : Part → Prop
  | gap text => text ≠ [] ∧ ∀ c ∈ text, separatesFragments c = true
  | pseudo colons name arguments => (colons = [':'] ∨ colons = [':', ':']) ∧ name ≠ [] ∧
      ((arguments = [] ∧ ∀ x ∈ rest.head?, isNameChar x = false ∧ x ≠ '(') ∨
        ∃ inside, arguments = '(' :: inside)
  | simple _ => True

theorem fits_gap {t : Text} {l : Lexeme} (hl : l ∈ pieces t) (h : l.token.isGap = true)
    (rest : Text) : (Part.gap l.text).Fits rest := by
  have hmark : ∀ {c}, l.token.mark? = some c → separatesFragments c = true →
      (Part.gap l.text).Fits rest := by
    intro c hmark hc
    rw [text_eq_of_mark? hl hmark]
    exact ⟨List.cons_ne_nil _ _, fun x hx => by rwa [List.mem_singleton.mp hx]⟩
  cases htoken : l.token with
  | space =>
    obtain ⟨c, v, s, htext, -, -⟩ := exists_ahead_of_mem_pieces hl
    refine ⟨by rw [htext]; exact List.cons_ne_nil _ _, fun x hx => ?_⟩
    simp only [separatesFragments, isBlank_of_isSpace (isSpace_of_mem_text hl htoken x hx),
      Bool.true_or]
  | comma => exact hmark (by rw [htoken]; rfl) (by decide)
  | delim c =>
    rw [htoken] at h
    refine hmark (by rw [htoken]; rfl) ?_
    simp only [Token.isGap, Bool.or_eq_true] at h
    simp only [separatesFragments, Bool.or_eq_true]
    tauto
  | _ => rw [htoken] at h; cases h

theorem fits_namedAhead? {colons t : Text} {r : Part × List Lexeme}
    (hcolons : colons = [':'] ∨ colons = [':', ':']) (h : namedAhead? colons (pieces t) = some r) :
    r.1.source ++ Lexeme.sourceOf r.2 = colons ++ t ∧ r.1.Fits (Lexeme.sourceOf r.2) := by
  have hsource := sourceOf_pieces t
  cases hls : pieces t with
  | nil => rw [hls] at h; cases h
  | cons l ls =>
    have hl : l ∈ pieces t := by rw [hls]; exact List.mem_cons_self
    rw [hls] at h hsource
    rw [← hsource]
    rw [namedAhead?] at h
    split at h
    next name htoken =>
      cases h
      obtain ⟨c, v, s, htext, -, -⟩ := exists_ahead_of_mem_pieces hl
      refine ⟨by simp [Part.source], hcolons, by rw [htext]; exact List.cons_ne_nil _ _, ?_⟩
      exact .inl ⟨rfl, behind_ident hls htoken⟩
    next name htoken =>
      cases h
      obtain ⟨w, hne, htext⟩ := text_eq_of_function hl htoken
      refine ⟨?_, hcolons, by rwa [htext, List.dropLast_concat], .inr ⟨_, rfl⟩⟩
      rw [Lexeme.sourceOf_cons, ← sourceOf_closeAhead [.round] ls, htext]
      simp [Part.source]
    next => cases h

theorem fits_pseudoAhead? {t : Text} {r : Part × List Lexeme}
    (h : pseudoAhead? (pieces t) = some r) :
    r.1.source ++ Lexeme.sourceOf r.2 = t ∧ r.1.Fits (Lexeme.sourceOf r.2) := by
  unfold pseudoAhead? at h
  split at h
  next l m ls hls =>
    split at h
    next hl =>
      obtain ⟨s, rfl, hs⟩ := exists_of_mark? hls (b := ':') (by rw [hl]; rfl)
      split at h
      next hm =>
        obtain ⟨s, rfl, rfl⟩ := exists_of_mark? hs (b := ':') (by rw [hm]; rfl)
        exact fits_namedAhead? (.inr rfl) h
      next =>
        rw [← hs] at h
        exact fits_namedAhead? (.inl rfl) h
    next => cases h
  next => cases h

/-- **A part and what is left are the text**, and the part fits what is left. -/
theorem fits_partAhead {t : Text} {l : Lexeme} {ls : List Lexeme} (hls : pieces t = l :: ls) :
    (partAhead l ls).1.source ++ Lexeme.sourceOf (partAhead l ls).2 = t ∧
      (partAhead l ls).1.Fits (Lexeme.sourceOf (partAhead l ls).2) := by
  have hl : l ∈ pieces t := by rw [hls]; exact List.mem_cons_self
  have hsource := sourceOf_pieces t
  rw [hls, Lexeme.sourceOf_cons] at hsource
  unfold partAhead
  split
  next hgap => exact ⟨hsource, fits_gap hl hgap _⟩
  next =>
    split
    next hr => exact fits_pseudoAhead? (hls ▸ hr)
    next =>
      refine ⟨?_, trivial⟩
      rw [Part.source, List.append_assoc, sourceOf_closeAhead, hsource]

/-- The text is put together from the parts, and each part fits what stands behind it. -/
inductive Spells : List Part → Text → Prop
  | nil : Spells [] []
  | cons {part : Part} {ps : List Part} {rest : Text} (hfits : part.Fits rest)
      (hps : Spells ps rest) : Spells (part :: ps) (part.source ++ rest)

theorem spells_partsFrom {t : Text} {ls : List Lexeme} (hls : pieces t = ls) :
    Spells (partsFrom ls) t := by
  fun_induction partsFrom ls generalizing t with
  | case1 =>
    rw [← sourceOf_pieces t, hls]
    exact .nil
  | case2 l ls ih =>
    obtain ⟨hsource, hfits⟩ := fits_partAhead hls
    obtain ⟨run, hrun⟩ := (partAhead_suffix l ls).trans (List.suffix_cons l ls)
    have hrest := ih (pieces_sourceOf_of_append (hls.trans hrun.symm))
    rw [← hsource]
    exact .cons hfits hrest

/-- **The parts of a selector spell it.**  Everything about `parts` follows from this. -/
theorem spells_parts (selector : Text) : Spells (parts selector) selector := spells_partsFrom rfl

theorem Spells.flatMap_source {ps : List Part} {t : Text} (h : Spells ps t) :
    ps.flatMap Part.source = t := by
  induction h with
  | nil => rfl
  | cons _ _ ih => rw [List.flatMap_cons, ih]

theorem Spells.exists_fits {ps : List Part} {t : Text} (h : Spells ps t) :
    ∀ part ∈ ps, ∃ rest, part.Fits rest := by
  induction h with
  | nil => exact nofun
  | cons hfits _ ih => exact List.forall_mem_cons.mpr ⟨⟨_, hfits⟩, ih⟩

/-- The parts of a selector, put together, are the selector. -/
theorem flatMap_source_parts (selector : Text) :
    (parts selector).flatMap Part.source = selector := (spells_parts selector).flatMap_source

/-! ## Plain selectors -/

/-- Whether no colon in the text looks like the beginning of a pseudo-class: what stands behind it
is neither a colon nor in the name of one. -/
def inert : Text → Bool
  | [] => true
  | c :: t => (c != ':' || t.head?.any fun d => d != ':' && !isPseudoNameChar d) && inert t

/-- Characters mean in the part what they look like: in a pseudo-class only letters and hyphens
stand in the name, and the first closing parenthesis ends the arguments; in any other part nothing
looks like a gap or a pseudo-class. -/
def Part.IsPlain : Part → Prop
  | gap _ => True
  | pseudo _ name arguments => (∀ c ∈ name, isPseudoNameChar c = true) ∧
      (arguments = [] ∨ (arguments.getLast? = some ')' ∧ ')' ∉ arguments.dropLast))
  | simple text => (∀ c ∈ text, separatesFragments c = false) ∧ inert text = true

instance : DecidablePred Part.IsPlain
  | .gap _ => .isTrue trivial
  | .pseudo _ _ _ => inferInstanceAs (Decidable (_ ∧ _))
  | .simple _ => inferInstanceAs (Decidable (_ ∧ _))

/-- All parts of the selector are plain. -/
def IsPlain (selector : Text) : Prop := ∀ part ∈ parts selector, part.IsPlain

instance (selector : Text) : Decidable (IsPlain selector) :=
  inferInstanceAs (Decidable (∀ part ∈ parts selector, part.IsPlain))

/-! ## What is taken out -/

theorem isNameChar_of_isPseudoNameChar {c : Char} (h : isPseudoNameChar c = true) :
    isNameChar c = true := by
  simp only [isPseudoNameChar, isNameChar, Char.isAlphanum, Bool.or_eq_true] at h ⊢
  tauto

/-- A gap holds no colon. -/
theorem inert_of_separates {t : Text} (h : ∀ c ∈ t, separatesFragments c = true) :
    inert t = true := by
  induction t with
  | nil => rfl
  | cons c t ih =>
    have hc : c ≠ ':' := by
      rintro rfl
      exact absurd (h ':' List.mem_cons_self) (by decide)
    rw [inert, ih fun x hx => h x (List.mem_cons_of_mem _ hx), bne_iff_ne.mpr hc]
    rfl

/-- A text in which nothing looks like a pseudo-class is left as it is. -/
theorem stripPseudo_append_of_inert {u : Text} (hu : inert u = true) (rest : Text) :
    stripPseudo (u ++ rest) = u ++ stripPseudo rest := by
  induction u with
  | nil => rfl
  | cons c u ih =>
    rw [inert, Bool.and_eq_true] at hu
    have hnone : ∀ behind, ¬ PseudoAt (c :: (u ++ rest)) behind := by
      intro behind hat
      obtain ⟨rfl, d, hd, hlooks⟩ := hat.head
      cases u with
      | nil => exact absurd hu.1 (by decide)
      | cons e u =>
        obtain rfl : e = d := Option.some.inj hd
        have he : e ≠ ':' ∧ isPseudoNameChar e = false := by simpa using hu.1
        rcases hlooks with rfl | hlooks
        · exact he.1 rfl
        · exact Bool.eq_false_iff.mp he.2 hlooks
    rw [List.cons_append, stripPseudo_of_not_pseudoAt hnone, ih hu.2, List.cons_append]

theorem arguments_of_once {inside : Text} (hlast : ('(' :: inside).getLast? = some ')')
    (honce : ')' ∉ ('(' :: inside).dropLast) (rest : Text) : Arguments ('(' :: inside) rest := by
  obtain ⟨front, hfront⟩ := List.getLast?_eq_some_iff.mp hlast
  rw [hfront, List.dropLast_concat] at honce
  cases front with
  | nil => cases hfront
  | cons c front =>
    obtain ⟨rfl, rfl⟩ : '(' = c ∧ inside = front ++ [')'] := List.cons.inj hfront
    exact .closed fun h => honce (List.mem_cons_of_mem _ h)

/-- A plain pseudo-class is one for the text as well. -/
theorem pseudoAt_source {colons name arguments rest : Text}
    (hfits : (Part.pseudo colons name arguments).Fits rest)
    (hplain : (Part.pseudo colons name arguments).IsPlain) :
    PseudoAt (colons ++ name ++ arguments ++ rest) rest := by
  obtain ⟨hcolons, hne, ⟨rfl, hbehind⟩ | ⟨inside, rfl⟩⟩ := hfits
  · refine .intro hcolons hne hplain.1 (fun c hc => ?_) (.none fun inside behind heq => ?_)
    · refine Bool.eq_false_iff.mpr fun hchar => ?_
      exact Bool.eq_false_iff.mp (hbehind c hc).1 (isNameChar_of_isPseudoNameChar hchar)
    · rw [heq] at hbehind
      exact (hbehind '(' rfl).2 rfl
  · obtain ⟨hlast, honce⟩ := hplain.2.resolve_left (List.cons_ne_nil _ _)
    refine .intro hcolons hne hplain.1 (fun c hc => ?_) (arguments_of_once hlast honce rest)
    cases hc
    rfl

/-- **What is taken out of a plain part** is the part, if it is a pseudo-class, and nothing
otherwise. -/
theorem stripPseudo_source {part : Part} {rest : Text} (hfits : part.Fits rest)
    (hplain : part.IsPlain) :
    stripPseudo (part.source ++ rest) = part.kept ++ stripPseudo rest := by
  cases part with
  | gap text => exact stripPseudo_append_of_inert (inert_of_separates hfits.2) rest
  | simple text => exact stripPseudo_append_of_inert hplain.2 rest
  | pseudo colons name arguments => exact stripPseudo_of_pseudoAt (pseudoAt_source hfits hplain)

/-! ## The fragments of plain selectors -/

/-- **What is taken out of a plain selector** are its pseudo-classes. -/
theorem Spells.stripPseudo {ps : List Part} {t : Text} (h : Spells ps t)
    (hplain : ∀ part ∈ ps, part.IsPlain) : stripPseudo t = ps.flatMap Part.kept := by
  induction h with
  | nil => rw [Css.stripPseudo, List.flatMap_nil]
  | cons hfits _ ih =>
    obtain ⟨hfirst, hothers⟩ := List.forall_mem_cons.mp hplain
    rw [stripPseudo_source hfits hfirst, ih hothers, List.flatMap_cons]

/-- Without a gap there is one stretch, or none if nothing is kept. -/
theorem stretches_of_no_gap {p : Char → Bool} {run : List Part}
    (hrun : ∀ part ∈ run, part.isGap = false ∧ ∀ c ∈ part.kept, p c = false) :
    stretches p (run.flatMap Part.kept) = compoundsOf run := by
  have hchars : ∀ c ∈ run.flatMap Part.kept, p c = false := by
    intro c hc
    obtain ⟨part, hpart, hc⟩ := List.mem_flatMap.mp hc
    exact (hrun part hpart).2 c hc
  rw [stretches_eq_splitOnP, compoundsOf, List.splitOnP_eq_singleton hchars,
    List.splitOnP_eq_singleton fun part hpart => (hrun part hpart).1]
  rfl

theorem compoundsOf_append_cons {gap : Part} (hgap : gap.isGap = true) (run ps : List Part) :
    compoundsOf (run ++ gap :: ps) = compoundsOf run ++ compoundsOf ps := by
  rw [compoundsOf, List.splitOnP_append_cons _ _ hgap, List.map_append, List.filter_append]
  rfl

/-- The stretches of a text that is put together from parts.  The induction goes along the parts
and collects those since the last gap. -/
theorem stretches_flatMap_kept {p : Char → Bool} {run ps : List Part}
    (hrun : ∀ part ∈ run, part.isGap = false ∧ ∀ c ∈ part.kept, p c = false)
    (hgap : ∀ part ∈ ps, part.isGap = true → part.kept ≠ [] ∧ ∀ c ∈ part.kept, p c = true)
    (hother : ∀ part ∈ ps, part.isGap = false → ∀ c ∈ part.kept, p c = false) :
    stretches p ((run ++ ps).flatMap Part.kept) = compoundsOf (run ++ ps) := by
  induction ps generalizing run with
  | nil =>
    rw [List.append_nil]
    exact stretches_of_no_gap hrun
  | cons part ps ih =>
    obtain ⟨hfirst, hgaps⟩ := List.forall_mem_cons.mp hgap
    obtain ⟨hfirst', hothers⟩ := List.forall_mem_cons.mp hother
    cases hpart : part.isGap with
    | true =>
      obtain ⟨hne, hchars⟩ := hfirst hpart
      obtain ⟨c, u, hkept⟩ := List.exists_cons_of_ne_nil hne
      rw [hkept] at hchars
      obtain ⟨hc, hu⟩ := List.forall_mem_cons.mp hchars
      have hrest : stretches p (([] ++ ps).flatMap Part.kept) = compoundsOf ([] ++ ps) :=
        ih nofun hgaps hothers
      rw [List.nil_append] at hrest
      rw [List.flatMap_append, List.flatMap_cons, hkept, List.cons_append,
        stretches_append_cons hc, stretches_append_of_forall hu, stretches_of_no_gap hrun, hrest,
        compoundsOf_append_cons hpart]
    | false =>
      rw [List.append_cons]
      refine ih (List.forall_mem_append.mpr ⟨hrun, ?_⟩) hgaps hothers
      exact List.forall_mem_singleton.mpr ⟨hpart, hfirst' hpart⟩

/-- **The fragments of a plain selector are its compounds.** -/
theorem fragments_stripPseudo_of_isPlain {s : Text} (h : IsPlain s) :
    fragments (stripPseudo s) = compounds s := by
  rw [(spells_parts s).stripPseudo h, compounds, fragments, ← List.nil_append (parts s)]
  refine stretches_flatMap_kept nofun (fun part hpart hgap => ?_) fun part hpart hgap c hc => ?_
  · obtain ⟨rest, hfits⟩ := (spells_parts s).exists_fits part hpart
    cases part with
    | gap text => exact hfits
    | pseudo => cases hgap
    | simple => cases hgap
  · have hplain := h part hpart
    cases part with
    | gap => cases hgap
    | pseudo => cases hc
    | simple text => exact hplain.1 c hc

end StyleAudit.Css
