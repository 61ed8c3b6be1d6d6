import StyleAudit.Css.Lexer

/-!
# Runs of lexemes with their brackets closed

A selector, a value, the inside of a block: each is a run of lexemes that ends before a
token of some kind, provided that token stands outside every bracket opened on the way.
`valuesUntil` reads such a run.

White space and comments right before the end of the run do not belong to it, so that a
selector does not take along the blanks before its brace.  Inside a bracket that is never
closed nothing ends the run, and the blanks at the end of the text stay in it.

* `valuesUntil_append` --- a run and what is left are the lexemes that were there;
* `length_blockAhead_add_le` --- a block and what stands behind it are no longer than the text
  they were read from.
-/

namespace StyleAudit.Css

/-- The lexemes from the first one on that is neither white space nor a comment. -/
def skipBlanks (ls : List Lexeme) : List Lexeme := ls.dropWhile Lexeme.isBlank

/-- The place where the next lexeme stands; `eof` if there is none. -/
def placeOf (eof : Place) : List Lexeme → Place
  | [] => eof
  | l :: _ => l.start

/-- Whether only blanks stand before the end of the text or a token that `stop`
accepts. -/
def endsHere (stop : Token → Bool) (ls : List Lexeme) : Bool :=
  match skipBlanks ls with
  | [] => true
  | l :: _ => stop l.token

/-- The run of lexemes up to the first token outside all brackets that `stop` accepts,
less the blanks before it, and what is left.  The list says which brackets are open,
innermost first. -/
def valuesUntil (stop : Token → Bool) : List Bracket → List Lexeme → List Lexeme × List Lexeme
  | _, [] => ([], [])
  | stack, l :: ls =>
    if stack.isEmpty && endsHere stop (l :: ls) then ([], l :: ls)
    else
      let r := valuesUntil stop (l.token.nesting stack) ls
      (l :: r.1, r.2)

/-- Whether the token opens a block of rules or declarations. -/
def opensBlock (t : Token) : Bool := t == .opening .curly

/-- Whether the token ends a statement or opens a block. -/
def endsHead (t : Token) : Bool := t == .semicolon || t == .opening .curly

/-- The inside of a block behind its opening brace, as it is written, and what is left
behind its closing brace. -/
def blockAhead (ls : List Lexeme) : Text × List Lexeme :=
  let r := valuesUntil (· == .closing .curly) [] ls
  (Lexeme.sourceOf r.1, (skipBlanks r.2).tail)

/-! ## What is read is what was there -/

theorem valuesUntil_append (stop : Token → Bool) (stack : List Bracket) (ls : List Lexeme) :
    (valuesUntil stop stack ls).1 ++ (valuesUntil stop stack ls).2 = ls := by
  fun_induction valuesUntil stop stack ls with
  | case1 => rfl
  | case2 => rfl
  | case3 stack l ls _ r ih => simpa using ih

theorem valuesUntil_suffix (stop : Token → Bool) (stack : List Bracket) (ls : List Lexeme) :
    (valuesUntil stop stack ls).2 <:+ ls :=
  ⟨_, valuesUntil_append stop stack ls⟩

theorem skipBlanks_suffix (ls : List Lexeme) : skipBlanks ls <:+ ls := List.dropWhile_suffix _

/-- What is left from the end of a run on, the blanks before it passed over. -/
theorem skipBlanks_valuesUntil_suffix (stop : Token → Bool) (stack : List Bracket)
    (ls : List Lexeme) : skipBlanks (valuesUntil stop stack ls).2 <:+ ls :=
  (skipBlanks_suffix _).trans (valuesUntil_suffix stop stack ls)

theorem blockAhead_suffix (ls : List Lexeme) : (blockAhead ls).2 <:+ ls :=
  (List.tail_suffix _).trans (skipBlanks_valuesUntil_suffix _ _ ls)

/-- The inside of a block and what is left behind it are no longer than the text they were
read from. -/
theorem length_blockAhead_add_le (ls : List Lexeme) :
    (blockAhead ls).1.length + (Lexeme.sourceOf (blockAhead ls).2).length ≤
      (Lexeme.sourceOf ls).length := by
  have h := valuesUntil_append (· == .closing .curly) [] ls
  have hs : (Lexeme.sourceOf (blockAhead ls).2).length ≤
      (Lexeme.sourceOf (valuesUntil (· == .closing .curly) [] ls).2).length :=
    Lexeme.length_sourceOf_le ((List.tail_suffix _).trans (skipBlanks_suffix _))
  have hl := congrArg (fun x => (Lexeme.sourceOf x).length) h
  simp only [Lexeme.sourceOf_append, List.length_append] at hl
  simp only [blockAhead] at hs ⊢
  omega

end StyleAudit.Css
