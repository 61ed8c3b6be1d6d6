import StyleAudit.Css.Token

/-!
# Cutting a stylesheet into lexemes

The grammar is that of CSS Syntax Level 3, with three points of its own: comments are
tokens too, the text is not preprocessed (a carriage return stays one), and the
character NUL belongs to names and stands for `U+FFFD` in them.

Every function here that is named `...Ahead` looks at the front of a text and answers
with what it found there and **the number of characters it takes**.  Nothing needs to
be proved about a count for it to be used: what is taken is `take n` and what is left is
`drop n`, and the two put together are the text again, whatever `n` is.  That is the whole
argument for `sourceOf_lexemes`: the lexemes of a text, put together, are the text.

For the cutting to end, one count must not be zero, the one of a whole token
(`Token.ahead_pos`).

A token is found by looking at the text in front of it and at nothing else.  In
particular the lexemes of a text do not depend on which brackets are open, and the
grammar above this level can be read off the list of them.
-/

namespace StyleAudit.Css

/-! ## Classes of characters -/

/-- The characters that end a line. -/
def isNewline (c : Char) : Bool := c == '\n' || c == '\r' || c == '\x0c'

/-- The characters that the grammar counts as white space. -/
def isSpace (c : Char) : Bool := c == ' ' || c == '\t' || isNewline c

/-- The characters that can begin a name. -/
def isNameStart (c : Char) : Bool := c.isAlpha || c == '_' || c == '\x00' || 0x80 ≤ c.toNat

/-- The characters that can stand inside a name as they are. -/
def isNameChar (c : Char) : Bool := c.isAlphanum || c == '_' || c == '-' || 0x80 ≤ c.toNat

/-- The digits of hexadecimal numbers. -/
def isHexDigit (c : Char) : Bool :=
  c.isDigit || ('a' ≤ c && c ≤ 'f') || ('A' ≤ c && c ≤ 'F')

/-- The characters that break an address written without quotes. -/
def breaksUrl (c : Char) : Bool :=
  let n := c.toNat
  (1 ≤ n && n ≤ 8) || n == 0x0B || (0x0E ≤ n && n ≤ 0x1F) || n == 0x7F ||
    c == '"' || c == '\'' || c == '('

/-- What stands for a character that cannot be there. -/
def replacement : Char := '\uFFFD'

/-- Whether a text begins with a line end. -/
def newlineAhead : Text → Bool
  | c :: _ => isNewline c
  | [] => false

/-- The length of the line end at the front of the text; zero if there is none. -/
def newlineLength : Text → Nat
  | '\r' :: '\n' :: _ => 2
  | c :: _ => if isNewline c then 1 else 0
  | [] => 0

/-- The length of the white space character at the front of the text, a carriage
return and a line feed counting as one; zero if there is none. -/
def spaceLength : Text → Nat
  | '\r' :: '\n' :: _ => 2
  | c :: _ => if isSpace c then 1 else 0
  | [] => 0

/-! ## Escapes and names -/

/-- The value of one hexadecimal digit. -/
def hexDigitValue (c : Char) : Nat :=
  if c.isDigit then c.toNat - '0'.toNat else c.toLower.toNat - 'a'.toNat + 10

/-- The character with the given code; `U+FFFD` for zero and for numbers that are no
character's code. -/
def charOfCode (n : Nat) : Char := if n ≠ 0 ∧ n.isValidChar then Char.ofNat n else replacement

/-- The escape at the front of the text, its backslash already taken: up to six
hexadecimal digits and one white space character, or any one character. -/
def escapeAhead (t : Text) : Char × Nat :=
  let digits := (t.take 6).takeWhile isHexDigit
  if digits.isEmpty then
    match t with
    | [] => (replacement, 0)
    | c :: _ => (if c = '\x00' then replacement else c, 1)
  else
    (charOfCode (digits.foldl (fun n c => 16 * n + hexDigitValue c) 0),
      digits.length + spaceLength (t.drop digits.length))

/-- The name at the front of the text, with its escapes resolved. -/
def nameAhead : Text → Text × Nat
  | [] => ([], 0)
  | c :: t =>
    if c = '\\' then
      if newlineAhead t then ([], 0)
      else
        let e := escapeAhead t
        let r := nameAhead (t.drop e.2)
        (e.1 :: r.1, 1 + e.2 + r.2)
    else if c = '\x00' then
      let r := nameAhead t
      (replacement :: r.1, 1 + r.2)
    else if isNameChar c then
      let r := nameAhead t
      (c :: r.1, 1 + r.2)
    else ([], 0)
termination_by t => t.length
decreasing_by all_goals simp only [List.length_cons, List.length_drop]; omega

/-- Whether a name begins at the front of the text. -/
def nameStartsAt : Text → Bool
  | '-' :: c :: _ => isNameStart c || c == '-' || c == '\\'
  | '\\' :: t => !newlineAhead t
  | c :: _ => isNameStart c
  | [] => false

/-- Whether a numeral begins at the front of the text. -/
def numeralStartsAt (t : Text) : Bool :=
  let t := t.drop (Sign.ahead? t).toList.length
  digitAhead t || !(Numeral.fractionAhead t).isEmpty

theorem nameAhead_pos {t : Text} (h : nameStartsAt t = true) : 0 < (nameAhead t).2 := by
  match t with
  | [] => simp [nameStartsAt] at h
  | c :: t =>
    rw [nameAhead]
    by_cases hb : c = '\\'
    · subst hb
      simp only [nameStartsAt] at h
      simp only [if_true, Bool.not_eq_true'] at h ⊢
      simp only [h, Bool.false_eq_true, if_false]
      omega
    · by_cases hz : c = '\x00'
      · subst hz
        simp only [Char.reduceEq, if_false, if_true]
        omega
      · by_cases hc : isNameChar c = true
        · simp only [hb, hz, hc, if_false, if_true]
          omega
        · exfalso
          by_cases hd : c = '-'
          · subst hd
            exact hc (by decide)
          · have : isNameStart c = true := by
              unfold nameStartsAt at h
              split at h <;> simp_all
            apply hc
            simp only [isNameStart, isNameChar, Char.isAlphanum, Bool.or_eq_true,
              beq_iff_eq] at this ⊢
            rcases this with ((h1 | h1) | h1) | h1
            · exact .inl (.inl (.inl (.inl h1)))
            · exact .inl (.inl (.inr h1))
            · exact absurd h1 hz
            · exact .inr h1

/-! ## Comments, strings and addresses -/

/-- The length of a comment behind its first two characters. -/
def commentLength : Text → Nat
  | '*' :: '/' :: _ => 2
  | _ :: t => 1 + commentLength t
  | [] => 0

/-- The rest of a string behind its opening quote: its value, and whether it is whole.
A string ends at its quote or at the end of the text, and is cut off by a line end that
no backslash precedes. -/
def stringAhead (quote : Char) : Text → (Text × Bool) × Nat
  | [] => (([], true), 0)
  | c :: t =>
    if c = quote then (([], true), 1)
    else if isNewline c then (([], false), 0)
    else if c = '\\' then
      match t with
      | [] => (([], true), 1)
      | d :: u =>
        if isNewline d then
          let n := newlineLength (d :: u)
          let r := stringAhead quote ((d :: u).drop n)
          (r.1, 1 + n + r.2)
        else
          let e := escapeAhead (d :: u)
          let r := stringAhead quote ((d :: u).drop e.2)
          ((e.1 :: r.1.1, r.1.2), 1 + e.2 + r.2)
    else
      let r := stringAhead quote t
      (((if c = '\x00' then replacement else c) :: r.1.1, r.1.2), 1 + r.2)
termination_by t => t.length
decreasing_by all_goals simp only [List.length_cons, List.length_drop]; omega

/-- What may follow white space inside an address: the closing parenthesis or the end of
the text.  Anything else breaks the address, and is taken. -/
def urlEndAhead (t : Text) : Bool × Nat :=
  let n := (t.takeWhile isSpace).length
  match t.drop n with
  | [] => (true, n)
  | c :: _ => (c == ')', n + 1)

/-- An address without quotes, from its first character: its value if it is whole, and
the number of characters up to its end or up to where it breaks. -/
def urlAhead : Text → Option Text × Nat
  | [] => (some [], 0)
  | c :: t =>
    if isSpace c then
      let e := urlEndAhead (c :: t)
      (if e.1 then some [] else none, e.2)
    else if c = ')' then (some [], 1)
    else if breaksUrl c then (none, 1)
    else if c = '\\' then
      if newlineAhead t then (none, 1)
      else
        let e := escapeAhead t
        let r := urlAhead (t.drop e.2)
        (r.1.map (e.1 :: ·), 1 + e.2 + r.2)
    else
      let r := urlAhead t
      (r.1.map ((if c = '\x00' then replacement else c) :: ·), 1 + r.2)
termination_by t => t.length
decreasing_by all_goals simp only [List.length_cons, List.length_drop]; omega

/-- How far a broken address goes on: up to the next closing parenthesis that no
backslash precedes, or to the end of the text. -/
def brokenUrlLength : Text → Nat
  | [] => 0
  | ')' :: _ => 0
  | '\\' :: ')' :: t => 2 + brokenUrlLength t
  | '\\' :: '\\' :: t => 2 + brokenUrlLength t
  | _ :: t => 1 + brokenUrlLength t

/-- What stands behind `url(`.  With a quote ahead it is a function like any other, and
nothing is taken. -/
def urlTokenAhead (name : Text) (t : Text) : Token × Nat :=
  let blanks := (t.takeWhile isSpace).length
  let body := t.drop blanks
  if body.head? = some '"' ∨ body.head? = some '\'' then (.function name, 0)
  else
    let r := urlAhead body
    match r.1 with
    | some value => (.url value, blanks + r.2)
    | none =>
      let n := r.2 + brokenUrlLength (body.drop r.2)
      (.badUrl (body.take n), blanks + n + ((body.drop n).take 1).length)

/-! ## Tokens -/

/-- A name at the front of the text, with the parenthesis or the address behind it. -/
def identLikeAhead (t : Text) : Token × Nat :=
  let n := nameAhead t
  match t.drop n.2 with
  | '(' :: rest =>
    if n.1.sameName "url".toList then
      let u := urlTokenAhead n.1 rest
      (u.1, n.2 + 1 + u.2)
    else (.function n.1, n.2 + 1)
  | _ => (.ident n.1, n.2)

/-- A numeral at the front of the text, with the percent sign or the unit behind it. -/
def numericAhead (t : Text) : Token × Nat :=
  let n := Numeral.scan t
  let rest := t.drop n.2
  if rest.head? = some '%' then (.percentage n.1, n.2 + 1)
  else if nameStartsAt rest then
    let u := nameAhead rest
    (.dimension n.1 u.1, n.2 + u.2)
  else (.number n.1, n.2)

/-- A string at the front of the text, behind its opening quote. -/
def quotedAhead (quote : Char) (t : Text) : Token × Nat :=
  let s := stringAhead quote t
  (if s.1.2 then .string s.1.1 else .badString s.1.1, 1 + s.2)

/-- A character that an equals sign may follow to make a token of its own. -/
def matchAhead (c : Char) (token : Token) (t : Text) : Token × Nat :=
  if t.head? = some '=' then (token, 2) else (.delim c, 1)

/-- A character that begins neither white space nor a numeral nor a name, with what it
begins. -/
def markAhead (c : Char) (t : Text) : Token × Nat :=
  match c with
  | '"' => quotedAhead '"' t
  | '\'' => quotedAhead '\'' t
  | '#' =>
    let n := nameAhead t
    if nameStartsAt t then (.idHash n.1, 1 + n.2)
    else if digitAhead t ∨ t.head? = some '-' then (.hash n.1, 1 + n.2)
    else (.delim '#', 1)
  | '@' =>
    let n := nameAhead t
    if nameStartsAt t then (.atKeyword n.1, 1 + n.2) else (.delim '@', 1)
  | '/' => if t.head? = some '*' then (.comment, 2 + commentLength (t.drop 1)) else (.delim '/', 1)
  | '<' => if "!--".toList.isPrefixOf t then (.commentOpen, 4) else (.delim '<', 1)
  | '~' => matchAhead '~' .includeMatch t
  | '|' => matchAhead '|' .dashMatch t
  | '^' => matchAhead '^' .prefixMatch t
  | '$' => matchAhead '$' .suffixMatch t
  | '*' => matchAhead '*' .substringMatch t
  | ':' => (.colon, 1)
  | ';' => (.semicolon, 1)
  | ',' => (.comma, 1)
  | '(' => (.opening .round, 1)
  | '[' => (.opening .square, 1)
  | '{' => (.opening .curly, 1)
  | ')' => (.closing .round, 1)
  | ']' => (.closing .square, 1)
  | '}' => (.closing .curly, 1)
  | c => (.delim c, 1)

/-- The token at the front of the text `c :: t`, and the number of characters it
takes. -/
def Token.ahead (c : Char) (t : Text) : Token × Nat :=
  if isSpace c then (.space, 1 + (t.takeWhile isSpace).length)
  else if numeralStartsAt (c :: t) then numericAhead (c :: t)
  else if "-->".toList.isPrefixOf (c :: t) then (.commentClose, 3)
  else if nameStartsAt (c :: t) then identLikeAhead (c :: t)
  else markAhead c t

/-! ## Every token takes a character -/

theorem Numeral.scan_pos {t : Text} (h : numeralStartsAt t = true) :
    0 < (Numeral.scan t).2 := by
  simp only [numeralStartsAt, Bool.or_eq_true] at h
  simp only [Numeral.scan]
  rcases h with h | h
  · generalize t.drop (Sign.ahead? t).toList.length = u at h ⊢
    match u with
    | [] => simp [digitAhead] at h
    | d :: u =>
      have hd : d.isDigit = true := h
      simp only [List.takeWhile_cons, hd, if_true, List.length_cons]
      omega
  · generalize t.drop (Sign.ahead? t).toList.length = u at h ⊢
    match u with
    | [] => simp [Numeral.fractionAhead] at h
    | d :: u =>
      by_cases hd : d.isDigit = true
      · simp only [List.takeWhile_cons, hd, if_true, List.length_cons]
        omega
      · have hw : (d :: u).takeWhile Char.isDigit = [] := by simp [hd]
        simp only [hw, List.length_nil, List.drop_zero]
        rw [if_neg (by simpa using h)]
        omega

theorem identLikeAhead_pos {t : Text} (h : nameStartsAt t = true) :
    0 < (identLikeAhead t).2 := by
  have hn := nameAhead_pos h
  simp only [identLikeAhead]
  split
  · split <;> simp only <;> omega
  · exact hn

theorem numericAhead_pos {t : Text} (h : numeralStartsAt t = true) :
    0 < (numericAhead t).2 := by
  have hn := Numeral.scan_pos h
  simp only [numericAhead]
  split
  · simp only; omega
  · split <;> simp only <;> omega

theorem quotedAhead_pos (quote : Char) (t : Text) : 0 < (quotedAhead quote t).2 := by
  simp only [quotedAhead]
  omega

theorem matchAhead_pos (c : Char) (token : Token) (t : Text) :
    0 < (matchAhead c token t).2 := by
  unfold matchAhead
  split <;> simp

theorem markAhead_pos (c : Char) (t : Text) : 0 < (markAhead c t).2 := by
  unfold markAhead
  split
  case h_1 | h_2 => exact quotedAhead_pos _ _
  case h_7 | h_8 | h_9 | h_10 | h_11 => exact matchAhead_pos _ _ _
  case h_3 | h_4 | h_5 | h_6 =>
    repeat' split
    all_goals simp only
    all_goals omega
  all_goals exact Nat.one_pos

theorem Token.ahead_pos (c : Char) (t : Text) : 0 < (Token.ahead c t).2 := by
  unfold Token.ahead
  split
  · simp only; omega
  · split
    · exact numericAhead_pos ‹_›
    · split
      · simp only; omega
      · split
        · exact identLikeAhead_pos ‹_›
        · exact markAhead_pos c t

/-! ## The lexemes of a text -/

/-- The lexemes of a text that begins at the place `p`. -/
def lexemesFrom (p : Place) : Text → List Lexeme
  | [] => []
  | c :: t =>
    let found := Token.ahead c t
    let taken := (c :: t).take found.2
    ⟨found.1, taken, p⟩ :: lexemesFrom (p.past taken) ((c :: t).drop found.2)
termination_by t => t.length
decreasing_by
  have := Token.ahead_pos c t
  simp only [List.length_cons, List.length_drop]
  omega

/-- The lexemes of a text. -/
def lexemes (t : Text) : List Lexeme := lexemesFrom .start t

/-- The place behind the last character of a text. -/
def endPlace (t : Text) : Place := Place.start.past t

/-- **The lexemes of a text, put together, are the text.** -/
theorem sourceOf_lexemesFrom (p : Place) (t : Text) :
    Lexeme.sourceOf (lexemesFrom p t) = t := by
  fun_induction lexemesFrom p t with
  | case1 => rfl
  | case2 p c t found taken ih =>
    rw [Lexeme.sourceOf_cons, ih]
    exact List.take_append_drop _ _

/-- No lexeme is empty. -/
theorem text_ne_nil_of_mem_lexemesFrom {p : Place} {t : Text} {l : Lexeme}
    (h : l ∈ lexemesFrom p t) : l.text ≠ [] := by
  fun_induction lexemesFrom p t with
  | case1 => cases h
  | case2 p c t found taken ih =>
    rcases List.mem_cons.1 h with h | h
    · subst h
      have hp : 0 < found.2 := Token.ahead_pos c t
      simp only [taken]
      match found.2, hp with
      | n + 1, _ => simp
    · exact ih h

theorem sourceOf_lexemes (t : Text) : Lexeme.sourceOf (lexemes t) = t :=
  sourceOf_lexemesFrom _ _

end StyleAudit.Css
