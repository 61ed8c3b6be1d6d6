import Mathlib.Data.List.DropRight
import StyleAudit.Proofs.Css.Reparse
import StyleAudit.Proofs.Css.Starts
import StyleAudit.Proofs.Css.Truncation

/-!
# What a rule keeps of its text

A rule keeps its head and the inside of its block as text, to be read again later.  Either text is
the source of a run of lexemes, cut off in front of the blanks behind the run, and the head is
trimmed as well.  A lexeme is read with what follows it in view, so that cutting may change it, and
trimming takes away blanks that the grammar does not know as white space.

Only the last lexeme of a run is at stake.  What stands behind a run that is read up to its end
*detaches* (`Detaches`): it begins with no backslash and with no quote.  So by
`Token.ahead_of_append` a run that is read in front of it (`ReadsBefore`) is read again without it,
unless its last lexeme is one that cannot end a text (`ReadsBefore.cut`).  Such a lexeme is never
read at the end of a text, whence the condition is exact (`ReadsBefore.token_pieces_iff`).  What is
trimmed away at the end detaches too, and all but the last lexeme stay as they are
(`ReadsBefore.token_pieces_trim_iff`).

The main result is `keeps_of_mem_parseStylesheet`.  A block is kept faithfully except when it ends
in a string that is cut off by its line or in a backslash in front of a line end; a head except when
its last lexeme does not survive trimming, as an escaped space or a name that ends in a no-break
space does not.  `exists_kept_misread` has one case of either kind.
-/

namespace StyleAudit.Css

/-! ## Cutting a text off behind a run -/

/-- A text that a run of lexemes can be cut off in front of: it begins with no backslash and, but
for white space, with no quote. -/
structure Detaches (d : Text) : Prop where
  noEscape : d.head? ≠ some '\\'
  noQuote : ¬ quoteAhead d

theorem quoteAhead_cons_of_isSpace {c : Char} (hc : isSpace c = true) (t : Text) :
    quoteAhead (c :: t) ↔ quoteAhead t := by
  rw [quoteAhead, List.dropWhile_cons_of_pos hc, quoteAhead]

theorem not_quoteAhead_cons {c : Char} (hs : isSpace c = false) (hc : c ≠ '"') (hc' : c ≠ '\'')
    (t : Text) : ¬ quoteAhead (c :: t) := by
  rw [quoteAhead, List.dropWhile_cons_of_neg (Bool.eq_false_iff.mp hs)]
  exact not_or.mpr ⟨fun h => hc (Option.some.inj h), fun h => hc' (Option.some.inj h)⟩

/-- Blanks may be cut off as well. -/
theorem Detaches.append_blanks {w d : Text} (hw : ∀ c ∈ w, isBlank c = true) (hd : Detaches d) :
    Detaches (w ++ d) := by
  induction w with
  | nil => exact hd
  | cons c w ih =>
    have hc := hw c List.mem_cons_self
    have hne : ∀ x, isBlank x = false → c ≠ x := by
      rintro x hx rfl
      cases hx.symm.trans hc
    refine ⟨fun h => hne '\\' (by decide) (Option.some.inj h), ?_⟩
    cases hs : isSpace c with
    | true =>
      rw [List.cons_append, quoteAhead_cons_of_isSpace hs]
      exact (ih fun x hx => hw x (List.mem_cons_of_mem c hx)).noQuote
    | false =>
      exact not_quoteAhead_cons hs (hne '"' (by decide)) (hne '\'' (by decide)) _

theorem endsHere_pieces_dropWhile (stop : Token → Bool) (t : Text) :
    endsHere stop (pieces (t.dropWhile isSpace)) = endsHere stop (pieces t) := by
  rcases t with _ | ⟨c, t⟩
  · rfl
  · by_cases hc : isSpace c = true
    · rw [List.dropWhile_cons_of_pos hc, pieces_of_isSpace hc, endsHere_cons_of_isBlank rfl]
    · rw [List.dropWhile_cons_of_neg hc]

/-- What a run ends in front of may be cut off. -/
theorem detaches_of_endsHere {stop : Token → Bool}
    (hstop : ∀ token, stop token = true → token.isEdge = true) {d : Text}
    (h : endsHere stop (pieces d) = true) : Detaches d where
  noEscape := fun hd =>
    absurd (standsApart_of_endsHere hstop h '\\' hd) (by decide)
  noQuote := by
    rw [← endsHere_pieces_dropWhile] at h
    have hapart := standsApart_of_endsHere hstop h
    rintro (hd | hd)
    · exact absurd (hapart _ hd) (by decide)
    · exact absurd (hapart _ hd) (by decide)

theorem ahead_backslash_of_newline {t : Text} (h : newlineAhead t = true) :
    Token.ahead '\\' t = (.delim '\\', 1) := by
  have hnumeral : numeralStartsAt ('\\' :: t) = false := rfl
  have hclose : "-->".toList.isPrefixOf ('\\' :: t) = false := rfl
  have hname : nameStartsAt ('\\' :: t) = false := congrArg not h
  rw [Token.ahead, if_neg (by decide), if_neg (Bool.eq_false_iff.mp hnumeral),
    if_neg (Bool.eq_false_iff.mp hclose), if_neg (Bool.eq_false_iff.mp hname)]
  rfl

/-- **The last lexeme of a text can end a text.** -/
theorem endsText_of_mem_getLast? {t : Text} {g : Lexeme} (h : g ∈ (pieces t).getLast?) :
    g.token.endsText = true := by
  obtain ⟨front, hfront⟩ := List.getLast?_eq_some_iff.mp h
  have hlast : pieces g.text = [g] := by
    have hpieces := pieces_sourceOf_of_append hfront
    rwa [Lexeme.sourceOf_cons, Lexeme.sourceOf_nil, List.append_nil] at hpieces
  obtain ⟨c, v, s, ht, htext, hahead, -, hs⟩ := exists_of_pieces_eq_cons hlast
  rw [htext, List.cons.injEq, List.self_eq_append_right] at ht
  obtain ⟨-, rfl⟩ := ht
  rw [List.append_nil] at hahead
  have hends := Token.endsText_ahead (c := c) (t := v) (by rw [hahead])
  rwa [hahead] at hends

theorem endsText_of_token_pieces {t : Text} {tokens : List Token} {token : Token}
    (h : (pieces t).map Lexeme.token = tokens) (hlast : tokens.getLast? = some token) :
    token.endsText = true := by
  rw [← h, List.getLast?_map, Option.map_eq_some_iff] at hlast
  obtain ⟨g, hg, rfl⟩ := hlast
  exact endsText_of_mem_getLast? hg

theorem text_ne_nil_of_mem_pieces {t : Text} {l : Lexeme} (h : l ∈ pieces t) : l.text ≠ [] := by
  obtain ⟨c, v, s, htext, -⟩ := exists_ahead_of_mem_pieces h
  rw [htext]
  exact List.cons_ne_nil c v

theorem map_token_unplaced (run : List Lexeme) :
    (run.map Lexeme.unplaced).map Lexeme.token = run.map Lexeme.token := by
  rw [List.map_map]
  rfl

/-- Whether the run is read in front of the text, wherever its lexemes stand. -/
def ReadsBefore (run : List Lexeme) (t : Text) : Prop :=
  pieces (Lexeme.sourceOf run ++ t) = run.map Lexeme.unplaced ++ pieces t

section ReadsBefore

variable {run run' : List Lexeme} {l : Lexeme} {t : Text}

theorem readsBefore_nil (t : Text) : ReadsBefore [] t := rfl

theorem readsBefore_singleton :
    ReadsBefore [l] t ↔ pieces (l.text ++ t) = l.unplaced :: pieces t := by
  rw [ReadsBefore, Lexeme.sourceOf_cons, Lexeme.sourceOf_nil, List.append_nil]
  rfl

theorem readsBefore_append : ReadsBefore (run ++ run') t ↔
    ReadsBefore run (Lexeme.sourceOf run' ++ t) ∧ ReadsBefore run' t := by
  unfold ReadsBefore
  rw [Lexeme.sourceOf_append, List.append_assoc, List.map_append, List.append_assoc]
  constructor
  · intro h
    have hrest : pieces (Lexeme.sourceOf run' ++ t) = run'.map Lexeme.unplaced ++ pieces t := by
      have hsource := pieces_sourceOf_of_append h
      rwa [Lexeme.sourceOf_append, sourceOf_map_unplaced, sourceOf_pieces] at hsource
    exact ⟨by rw [h, hrest], hrest⟩
  · rintro ⟨hrun, hrest⟩
    rw [hrun, hrest]

theorem readsBefore_cons : ReadsBefore (l :: run) t ↔
    ReadsBefore [l] (Lexeme.sourceOf run ++ t) ∧ ReadsBefore run t := by
  rw [← List.singleton_append, readsBefore_append]

theorem ReadsBefore.unplaced_mem_pieces (h : ReadsBefore run t) (hl : l ∈ run) :
    l.unplaced ∈ pieces (Lexeme.sourceOf run ++ t) := by
  rw [h]
  exact List.mem_append_left _ (List.mem_map_of_mem hl)

theorem ReadsBefore.text_ne_nil (h : ReadsBefore run t) (hl : l ∈ run) : l.text ≠ [] :=
  text_ne_nil_of_mem_pieces (l := l.unplaced) (h.unplaced_mem_pieces hl)

theorem ReadsBefore.eq_nil (h : ReadsBefore run t) (hrun : Lexeme.sourceOf run = []) :
    run = [] := by
  rcases run with _ | ⟨l, run⟩
  · rfl
  · exact absurd (List.append_eq_nil_iff.mp hrun).1 (h.text_ne_nil List.mem_cons_self)

/-- A lexeme that is a backslash in front of a line end cannot end a text. -/
theorem ReadsBefore.newlineAhead_eq_false {w : Text} (h : ReadsBefore [l] t)
    (htext : l.text = '\\' :: w) (hends : l.token.endsText = true) :
    newlineAhead (w ++ t) = false := by
  rw [readsBefore_singleton, htext, List.cons_append] at h
  by_contra hnew
  rw [pieces_cons, ahead_backslash_of_newline (eq_true_of_ne_false hnew)] at h
  have htoken : Token.delim '\\' = l.token := congrArg Lexeme.token (List.cons.inj h).1
  rw [← htoken] at hends
  cases hends

/-- One lexeme, with the text cut off behind it or behind something that follows it. -/
theorem ReadsBefore.cut_singleton {s d : Text} (hd : Detaches d) (h : ReadsBefore [l] (s ++ d))
    (hback : s = ['\\'] → newlineAhead d = false) (hend : s = [] → l.token.endsText = true) :
    ReadsBefore [l] s := by
  rw [readsBefore_singleton] at h ⊢
  obtain ⟨c, v, r, ht, htext, hahead, -, -⟩ := exists_of_pieces_eq_cons h
  have htext : l.text = c :: v := htext
  rw [htext, List.cons_append, List.cons.injEq, List.append_cancel_left_eq] at ht
  obtain ⟨-, rfl⟩ := ht
  rw [← List.append_assoc] at hahead
  have hcut : Token.ahead c (v ++ s) = (l.token, v.length + 1) := by
    refine (Token.ahead_of_append hd.noEscape hd.noQuote ?_ ?_ ?_).trans hahead
    · rw [hahead, List.length_append]
      omega
    · rw [hahead, List.drop_succ_cons, List.drop_left]
      exact hback
    · rw [hahead, List.length_append]
      intro hlen
      exact hend (List.length_eq_zero_iff.mp (by simp only at hlen; omega))
  rw [htext, List.cons_append, pieces_of_ahead hcut, ← htext]
  rfl

/-- **A run is the same if the text is cut off behind it, or behind something that follows it.**
What is cut off must detach, and what is left must not end in a lexeme that cannot end a text. -/
theorem ReadsBefore.cut {k d : Text} (hd : Detaches d) (h : ReadsBefore run (k ++ d))
    (hback : k = ['\\'] → newlineAhead d = false)
    (hend : k = [] → ∀ g ∈ run.getLast?, g.token.endsText = true) : ReadsBefore run k := by
  induction run with
  | nil => exact readsBefore_nil k
  | cons l run ih =>
    obtain ⟨hfirst, hrest⟩ := readsBefore_cons.mp h
    refine readsBefore_cons.mpr ⟨?_, ih hrest fun hk g hg => hend hk g ?_⟩
    · rw [← List.append_assoc] at hfirst
      refine hfirst.cut_singleton hd (fun hs => ?_) fun hs => ?_
      · rcases run with _ | ⟨m, run⟩
        · exact hback hs
        · -- the backslash is the last lexeme of the run
          obtain ⟨hm, hrun⟩ := readsBefore_cons.mp hrest
          obtain ⟨c, v, hv⟩ := List.exists_cons_of_ne_nil (hm.text_ne_nil List.mem_cons_self)
          rw [Lexeme.sourceOf_cons, hv, List.append_assoc, List.cons_append, List.cons.injEq,
            List.append_eq_nil_iff, List.append_eq_nil_iff] at hs
          obtain ⟨rfl, rfl, hnil, rfl⟩ := hs
          obtain rfl := hrun.eq_nil hnil
          exact hm.newlineAhead_eq_false hv (hend rfl m rfl)
      · obtain ⟨hnil, hk⟩ := List.append_eq_nil_iff.mp hs
        obtain rfl := hrest.eq_nil hnil
        exact hend hk l rfl
    · rw [List.getLast?_cons, hg]
      rfl

theorem ReadsBefore.pieces_sourceOf {d : Text} (hd : Detaches d) (h : ReadsBefore run d)
    (hend : ∀ g ∈ run.getLast?, g.token.endsText = true) :
    pieces (Lexeme.sourceOf run) = run.map Lexeme.unplaced := by
  have hcut : ReadsBefore run [] := h.cut hd (fun hk => nomatch hk) fun _ => hend
  rwa [ReadsBefore, List.append_nil, pieces_nil, List.append_nil] at hcut

/-- **The tokens of a run that the text is cut off behind** are its own exactly if the last one
can end a text. -/
theorem ReadsBefore.token_pieces_iff {d : Text} (hd : Detaches d) (h : ReadsBefore run d) :
    (pieces (Lexeme.sourceOf run)).map Lexeme.token = run.map Lexeme.token ↔
      ∀ g ∈ run.getLast?, g.token.endsText = true := by
  constructor
  · intro htokens g hg
    refine endsText_of_token_pieces htokens ?_
    rw [List.getLast?_map, hg]
    rfl
  · intro hend
    rw [h.pieces_sourceOf hd hend, map_token_unplaced]

end ReadsBefore

/-! ## Trimming a run -/

/-- **The tokens of a run whose end is trimmed** are its own exactly if the last one is the only
token of its trimmed text.  The blanks of the last lexeme that are trimmed away need not be white
space to the grammar. -/
theorem ReadsBefore.token_pieces_trimEnd_iff {run : List Lexeme} {g : Lexeme} {d : Text}
    (hd : Detaches d) (h : ReadsBefore (run ++ [g]) d) (hg : Text.trimEnd g.text ≠ []) :
    (pieces (Text.trimEnd (Lexeme.sourceOf (run ++ [g])))).map Lexeme.token =
        (run ++ [g]).map Lexeme.token ↔
      (pieces (Text.trimEnd g.text)).map Lexeme.token = [g.token] := by
  obtain ⟨w, hw, hblank⟩ := Text.exists_trimEnd_append g.text
  obtain ⟨hrun, hlast⟩ := readsBefore_append.mp h
  rw [Lexeme.sourceOf_append, Lexeme.sourceOf_cons, Lexeme.sourceOf_nil, List.append_nil,
    Text.trimEnd_append hg]
  rw [Lexeme.sourceOf_cons, Lexeme.sourceOf_nil, List.append_nil, ← hw, List.append_assoc] at hrun
  by_cases hends : g.token.endsText = true
  · have hcut : ReadsBefore run (Text.trimEnd g.text) := by
      refine hrun.cut (hd.append_blanks hblank) (fun hslash => ?_) fun hk => absurd hk hg
      rw [hslash] at hw
      exact hlast.newlineAhead_eq_false hw.symm hends
    rw [hcut, List.map_append, List.map_append, map_token_unplaced, List.append_cancel_left_eq]
    rfl
  · refine iff_of_false (fun htokens => hends ?_) fun htokens => hends ?_
    · exact endsText_of_token_pieces htokens (by rw [List.map_append]; exact List.getLast?_concat)
    · exact endsText_of_token_pieces htokens rfl

/-- Whether the lexeme is white space. -/
def Lexeme.isWhite (l : Lexeme) : Bool := l.token == .space

/-- A run of lexemes without the white space at either end. -/
def trimSpaces (run : List Lexeme) : List Lexeme :=
  (run.dropWhile Lexeme.isWhite).rdropWhile Lexeme.isWhite

theorem exists_trimSpaces_append (run : List Lexeme) :
    ∃ lead trail, lead ++ (trimSpaces run ++ trail) = run ∧
      (∀ l ∈ lead, l.isWhite = true) ∧ ∀ l ∈ trail, l.isWhite = true := by
  refine ⟨run.takeWhile Lexeme.isWhite, (run.dropWhile Lexeme.isWhite).rtakeWhile Lexeme.isWhite,
    ?_, fun l hl => List.mem_takeWhile_imp hl, fun l hl => List.mem_rtakeWhile_imp hl⟩
  rw [trimSpaces, List.rdropWhile_append_rtakeWhile, List.takeWhile_append_dropWhile]

/-- White space is blank. -/
theorem ReadsBefore.isBlank_of_mem {run : List Lexeme} {t : Text} (h : ReadsBefore run t)
    (hwhite : ∀ l ∈ run, l.isWhite = true) : ∀ c ∈ Lexeme.sourceOf run, isBlank c = true := by
  intro c hc
  obtain ⟨l, hl, hcl⟩ := List.mem_flatMap.mp hc
  have htoken : l.unplaced.token = .space := eq_of_beq (hwhite l hl)
  exact isBlank_of_isSpace (isSpace_of_mem_text (h.unplaced_mem_pieces hl) htoken c hcl)

/-- **The tokens of a run that is trimmed** are those of the run without the white space at either
end exactly if the last of them is the only token of its trimmed text.  The run must not begin with
another blank, and its last lexeme must not hold blanks alone. -/
theorem ReadsBefore.token_pieces_trim_iff {run : List Lexeme} {d : Text} (hd : Detaches d)
    (h : ReadsBefore run d)
    (hfirst : ∀ c ∈ (Lexeme.sourceOf (trimSpaces run)).head?, isBlank c = false)
    (hlast : ∀ g ∈ (trimSpaces run).getLast?, Text.trimEnd g.text ≠ []) :
    (pieces (Text.trim (Lexeme.sourceOf run))).map Lexeme.token =
        (trimSpaces run).map Lexeme.token ↔
      ∀ g ∈ (trimSpaces run).getLast?,
        (pieces (Text.trimEnd g.text)).map Lexeme.token = [g.token] := by
  obtain ⟨lead, trail, hrun, hlead, htrail⟩ := exists_trimSpaces_append run
  generalize trimSpaces run = core at hrun hfirst hlast ⊢
  subst hrun
  obtain ⟨hleading, hrest⟩ := readsBefore_append.mp h
  obtain ⟨hcore, htrailing⟩ := readsBefore_append.mp hrest
  have hblank := htrailing.isBlank_of_mem htrail
  rw [Lexeme.sourceOf_append, Text.trim_append_of_isBlank (hleading.isBlank_of_mem hlead),
    Lexeme.sourceOf_append, Text.trim_append_blanks hblank, Text.trim_eq_trimEnd hfirst]
  rcases List.eq_nil_or_concat core with rfl | ⟨front, g, rfl⟩
  · refine iff_of_true ?_ fun g hg => nomatch hg
    exact congrArg (List.map Lexeme.token) pieces_nil
  · rw [List.concat_eq_append] at hcore hlast ⊢
    have hg : (front ++ [g]).getLast? = some g := List.getLast?_concat
    rw [hcore.token_pieces_trimEnd_iff (hd.append_blanks hblank) (hlast g hg), hg]
    exact ⟨fun htokens m hm => Option.some.inj hm ▸ htokens, fun htokens => htokens g rfl⟩

/-! ## The texts that a rule keeps -/

theorem map_token_lexemes (t : Text) :
    (lexemes t).map Lexeme.token = (pieces t).map Lexeme.token :=
  (map_token_unplaced (lexemes t)).symm

/-- What is left of the lexemes of a text is read again from its source. -/
theorem pieces_sourceOf_of_suffix {t : Text} {ls : List Lexeme} (h : ls <:+ lexemes t) :
    pieces (Lexeme.sourceOf ls) = ls.map Lexeme.unplaced := by
  obtain ⟨front, hfront⟩ := h
  have hsplit : pieces t = front.map Lexeme.unplaced ++ ls.map Lexeme.unplaced := by
    rw [pieces, ← hfront, List.map_append]
  rw [← sourceOf_map_unplaced]
  exact pieces_sourceOf_of_append hsplit

/-- A run of the lexemes of a text is read in front of what is left behind it. -/
theorem readsBefore_of_suffix {t : Text} {run rest : List Lexeme} (h : run ++ rest <:+ lexemes t) :
    ReadsBefore run (Lexeme.sourceOf rest) := by
  have hrun := pieces_sourceOf_of_suffix h
  have hrest := pieces_sourceOf_of_suffix ((List.suffix_append run rest).trans h)
  rw [Lexeme.sourceOf_append, List.map_append] at hrun
  rw [ReadsBefore, hrun, hrest]

/-- What is left behind a run that is read up to its end may be cut off. -/
theorem detaches_of_valuesUntil {stop : Token → Bool}
    (hstop : ∀ token, stop token = true → token.isEdge = true) {t : Text} {ls : List Lexeme}
    (hls : ls <:+ lexemes t) :
    Detaches (Lexeme.sourceOf (valuesUntil stop [] ls).2) := by
  refine detaches_of_endsHere hstop ?_
  rw [pieces_sourceOf_of_suffix ((valuesUntil_suffix stop [] ls).trans hls),
    endsHere_map keepsTokens_unplaced fun _ => rfl]
  exact endsHere_valuesUntil stop [] ls

/-- The selector of a qualified rule, or the condition of an at-rule. -/
def Rule.prelude? : Rule → Option Text
  | .qualified rule => some rule.selector
  | .atRule rule => some rule.condition
  | .error _ => none

/-- **Where a rule is read** in a text: its keyword if it is an at-rule, its head, and what is
behind the head. -/
structure Rule.ReadFrom (rule : Rule) (t : Text) (keyword head behind : List Lexeme) : Prop where
  suffix : keyword ++ (head ++ behind) <:+ lexemes t
  reading : ruleAt (endPlace t) (keyword ++ (head ++ behind)) = rule
  sign : (keyword = [] ∧ ∃ r, rule = .qualified r) ∨
    ∃ l r, keyword = [l] ∧ l.token = .atKeyword r.keyword ∧ rule = .atRule r
  /-- The head goes up to the blanks in front of the token that ends it. -/
  ends : valuesUntil (if keyword.isEmpty then opensBlock else endsHead) [] (head ++ behind) =
    (head, behind)

/-- **What is kept of a head** is its text, trimmed. -/
structure KeepsHead (kept : Text) (head : List Lexeme) : Prop where
  text : kept = Text.trim (Lexeme.sourceOf head)
  tokens : (∀ c ∈ (Lexeme.sourceOf (trimSpaces head)).head?, isBlank c = false) →
    (∀ g ∈ (trimSpaces head).getLast?, Text.trimEnd g.text ≠ []) →
      ((lexemes kept).map Lexeme.token = (trimSpaces head).map Lexeme.token ↔
        ∀ g ∈ (trimSpaces head).getLast?,
          (lexemes (Text.trimEnd g.text)).map Lexeme.token = [g.token])

/-- **What is kept of a block** that stands behind a head is the text inside of its braces, without
the blanks in front of the closing one. -/
structure KeepsBlock (kept : Text) (behind inner : List Lexeme) : Prop where
  stands : ∃ brace rest, skipBlanks behind = brace :: (inner ++ rest) ∧
    brace.token = .opening .curly ∧
      valuesUntil (· == .closing .curly) [] (inner ++ rest) = (inner, rest)
  text : kept = Lexeme.sourceOf inner
  tokens : (lexemes kept).map Lexeme.token = inner.map Lexeme.token ↔
    ∀ g ∈ inner.getLast?, g.token.endsText = true
  /-- A block whose tokens are kept is read again as it stands, lines aside. -/
  rereads : (∀ g ∈ inner.getLast?, g.token.endsText = true) → ∀ eof,
    (parseBlock kept).map Item.unplaced = (itemsFrom eof inner).map Item.unplaced ∧
      (parseStylesheet kept).map Rule.unplaced = (rulesFrom eof true inner).map Rule.unplaced

theorem keepsHead_valuesUntil {stop : Token → Bool}
    (hstop : ∀ token, stop token = true → token.isEdge = true) {t : Text} {ls : List Lexeme}
    (hls : ls <:+ lexemes t) :
    KeepsHead (Text.trim (Lexeme.sourceOf (valuesUntil stop [] ls).1))
      (valuesUntil stop [] ls).1 where
  text := rfl
  tokens := by
    intro hfirst hlast
    have hrun := readsBefore_of_suffix (t := t) ((valuesUntil_append stop [] ls).symm ▸ hls)
    simp only [map_token_lexemes]
    exact hrun.token_pieces_trim_iff (detaches_of_valuesUntil hstop hls) hfirst hlast

theorem keepsBlock_blockAhead {t : Text} {behind rest : List Lexeme} {brace : Lexeme}
    (hbehind : behind <:+ lexemes t) (hskip : skipBlanks behind = brace :: rest)
    (hbrace : brace.token = .opening .curly) :
    KeepsBlock (blockAhead rest).1 behind (valuesUntil (· == .closing .curly) [] rest).1 := by
  have hrest : rest <:+ lexemes t := by
    have hsuffix := (skipBlanks_suffix behind).trans hbehind
    rw [hskip] at hsuffix
    exact (List.suffix_cons brace rest).trans hsuffix
  have hstop : ∀ token : Token, (token == .closing .curly) = true → token.isEdge = true := by
    intro token htoken
    rw [eq_of_beq htoken]
    rfl
  have happend := valuesUntil_append (· == .closing .curly) [] rest
  have hrun := readsBefore_of_suffix (t := t) (happend.symm ▸ hrest)
  have hdetaches := detaches_of_valuesUntil hstop hrest
  refine ⟨⟨brace, (valuesUntil (· == .closing .curly) [] rest).2, ?_, hbrace, ?_⟩, rfl, ?_, ?_⟩
  · rw [happend, hskip]
  · rw [happend]
  · rw [map_token_lexemes]
    exact hrun.token_pieces_iff hdetaches
  · intro hend eof
    have hpieces := hrun.pieces_sourceOf hdetaches hend
    rw [map_unplaced_parseBlock eof, map_unplaced_parseStylesheet eof]
    show (itemsFrom eof (pieces (Lexeme.sourceOf _))).map _ = _ ∧
      (rulesFrom eof true (pieces (Lexeme.sourceOf _))).map _ = _
    rw [hpieces]
    exact ⟨itemsFrom_map_unplaced _ _ _, rulesFrom_map_unplaced _ _ _ _⟩

theorem keeps_atRuleAhead {t : Text} {ls : List Lexeme} (hls : ls <:+ lexemes t) (name : Text)
    (line : Nat) :
    KeepsHead (atRuleAhead name line ls).1.condition (valuesUntil endsHead [] ls).1 ∧
      ∀ body ∈ (atRuleAhead name line ls).1.body,
        ∃ inner, KeepsBlock body (valuesUntil endsHead [] ls).2 inner := by
  have hhead := keepsHead_valuesUntil (fun _ => isEdge_of_endsHead) hls
  have hbehind := (valuesUntil_suffix endsHead [] ls).trans hls
  rcases atRuleAhead_cases name line ls with ⟨brace, rest, hskip, hbrace, heq⟩ | ⟨-, heq⟩
  · rw [heq]
    refine ⟨hhead, fun body hbody => ?_⟩
    obtain rfl := Option.some.inj hbody
    exact ⟨_, keepsBlock_blockAhead hbehind hskip hbrace⟩
  · rw [heq]
    exact ⟨hhead, fun body hbody => nomatch hbody⟩

theorem keeps_qualifiedAhead {t : Text} {ls : List Lexeme} (hls : ls <:+ lexemes t) {eof : Place}
    {rule : QualifiedRule} (h : (qualifiedAhead false eof ls).1 = .ok rule) :
    KeepsHead rule.selector (valuesUntil opensBlock [] ls).1 ∧
      ∃ inner, KeepsBlock rule.body (valuesUntil opensBlock [] ls).2 inner := by
  obtain ⟨-, brace, rest, hskip, hbrace, hselector, hbody, -⟩ := qualifiedAhead_eq_ok h
  rw [hselector, hbody]
  exact ⟨keepsHead_valuesUntil (fun _ => isEdge_of_opensBlock) hls, _,
    keepsBlock_blockAhead ((valuesUntil_suffix opensBlock [] ls).trans hls) hskip hbrace⟩

/-- **What a rule keeps of its text.**  The tokens of what is kept of a head are those of the head,
and the tokens of what is kept of a block those of the block, exactly if the last one of them is
read again from what is kept of it. -/
theorem keeps_of_mem_parseStylesheet {t kept : Text} {rule : Rule}
    (hrule : rule ∈ parseStylesheet t) (hkept : rule.prelude? = some kept) :
    ∃ keyword head behind, rule.ReadFrom t keyword head behind ∧ KeepsHead kept head ∧
      ∀ body ∈ rule.body?, ∃ inner, KeepsBlock body behind inner := by
  rw [parseStylesheet, rulesFrom_eq_map] at hrule
  obtain ⟨start, hstart, rfl⟩ := List.mem_map.mp hrule
  obtain ⟨hne, hsuffix⟩ := ruleStarts_suffix hstart
  obtain ⟨l, ls, rfl⟩ := List.exists_cons_of_ne_nil hne
  by_cases hsign : ∃ name, l.token = .atKeyword name
  · obtain ⟨name, hname⟩ := hsign
    have happend := valuesUntil_append endsHead [] ls
    have hread : ruleAt (endPlace t) (l :: ls) = .atRule (atRuleAhead name l.start.line ls).1 :=
      ruleAt_of_atKeyword hname
    obtain ⟨hhead, hbody⟩ :=
      keeps_atRuleAhead ((List.suffix_cons l ls).trans hsuffix) name l.start.line
    rw [hread] at hkept ⊢
    obtain rfl := Option.some.inj hkept
    refine ⟨[l], (valuesUntil endsHead [] ls).1, (valuesUntil endsHead [] ls).2,
      ⟨?_, ?_, .inr ⟨l, _, rfl, ?_, rfl⟩, ?_⟩, hhead, hbody⟩
    · rw [happend]
      exact hsuffix
    · rw [happend]
      exact hread
    · rw [keyword_atRuleAhead, hname]
    · rw [happend]
      rfl
  · have happend := valuesUntil_append opensBlock [] (l :: ls)
    have hread : ruleAt (endPlace t) (l :: ls) =
        Rule.ofResult (qualifiedAhead false (endPlace t) (l :: ls)).1 :=
      ruleAt_of_qualified fun name hname => hsign ⟨name, hname⟩
    cases hresult : (qualifiedAhead false (endPlace t) (l :: ls)).1 with
    | error issue =>
      rw [hread, hresult] at hkept
      cases hkept
    | ok rule =>
      obtain ⟨hhead, inner, hinner⟩ := keeps_qualifiedAhead hsuffix hresult
      rw [hresult] at hread
      rw [hread] at hkept ⊢
      obtain rfl := Option.some.inj hkept
      refine ⟨[], (valuesUntil opensBlock [] (l :: ls)).1, (valuesUntil opensBlock [] (l :: ls)).2,
        ⟨?_, ?_, .inl ⟨rfl, rule, rfl⟩, ?_⟩, hhead, fun body hbody => ⟨inner, ?_⟩⟩
      · rw [List.nil_append, happend]
        exact hsuffix
      · rw [List.nil_append, happend]
        exact hread
      · rw [happend]
        rfl
      · obtain rfl := Option.some.inj hbody
        exact hinner

/-- A statement with a comment in its condition, and a rule with an escape in its selector. -/
def escapedSheet : Text :=
  "@media (x) /* y */ \x7ba\x7bb:c\x7d\x7d\n.d\\:e , f \x7bg:h /* i */ \x7d".toList

/-- The second rule of `escapedSheet` keeps its tokens. -/
theorem keeps_of_mem_parseStylesheet_escapedSheet :
    Rule.qualified ⟨".d\\:e , f".toList, "g:h".toList, 2, 2⟩ ∈ parseStylesheet escapedSheet ∧
      ∃ keyword head behind,
        (Rule.qualified ⟨".d\\:e , f".toList, "g:h".toList, 2, 2⟩).ReadFrom escapedSheet keyword
            head behind ∧
          KeepsHead ".d\\:e , f".toList head ∧
            ∀ body ∈ some "g:h".toList, ∃ inner, KeepsBlock body behind inner := by
  have hrule : Rule.qualified ⟨".d\\:e , f".toList, "g:h".toList, 2, 2⟩ ∈
      parseStylesheet escapedSheet := by
    decide +kernel
  exact ⟨hrule, keeps_of_mem_parseStylesheet hrule rfl⟩

/-- **What is kept may be read as something else.**  An escaped space at the end of a selector is
trimmed away behind its backslash, and a string that is cut off by the end of its line is whole
when the block is cut off in front of that. -/
theorem exists_kept_misread :
    (Rule.qualified ⟨".a\\".toList, "color:red".toList, 1, 1⟩ ∈
        parseStylesheet ".a\\ \x7bcolor:red\x7d".toList ∧
      ((lexemes ".a\\ \x7bcolor:red\x7d".toList).take 3).map Lexeme.token =
        [.delim '.', .ident "a ".toList, .opening .curly] ∧
      (lexemes ".a\\".toList).map Lexeme.token = [.delim '.', .ident ['a', replacement]]) ∧
    Rule.qualified ⟨".a".toList, "b:\"c".toList, 1, 1⟩ ∈
        parseStylesheet ".a\x7bb:\"c\n\x7d".toList ∧
      ((lexemes ".a\x7bb:\"c\n\x7d".toList).drop 3).map Lexeme.token =
        [.ident ['b'], .colon, .badString ['c'], .space, .closing .curly] ∧
      (lexemes "b:\"c".toList).map Lexeme.token = [.ident ['b'], .colon, .string ['c']] := by
  decide +kernel

end StyleAudit.Css
