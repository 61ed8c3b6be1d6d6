import StyleAudit.Text.Split

/-!
# Configuration files as trees

A configuration file is written in YAML, of which this module reads the part that describes
plain data: mappings and sequences in block and flow style, plain and quoted scalars, comments
and the marks around one document.  Anchors, tags, directives, block scalars and keys marked
with `?` are not read, and a file that has one, or that breaks the grammar, is no tree.

Block style is told by columns.  The reader stands at a `Spot`, which knows the column of the
next character, and the inside of a mapping or sequence is what stands further right than
its own column.  Between two entries a line has to end.

A scalar keeps whether it was plain, because `true` and `"true"` are different settings.

Reading is bounded by `fuel`, a number that no nesting in the text can use up
(`Node.parse?`).
-/

namespace StyleAudit.Yaml

/-- A tree that a file describes. -/
inductive Node where
  | scalar (text : Text) (plain : Bool)
  | sequence (items : List Node)
  | mapping (entries : List (Node × Node))
  deriving Inhabited

/-- What stands for nothing at all: a plain scalar without characters. -/
def Node.empty : Node := .scalar [] true

/-! ## Spots -/

/-- A spot in a text: what is left, and the column of its first character, counted from 0. -/
structure Spot where
  rest : Text
  column : Nat

/-- The spot after `n` more characters. -/
def Spot.advance (s : Spot) (n : Nat) : Spot :=
  ⟨s.rest.drop n, (s.rest.take n).foldl (fun col c => if c = '\n' then 0 else col + 1) s.column⟩

/-- Whether the character is a space or a tab. -/
def isGap (c : Char) : Bool := c == ' ' || c == '\t'

/-- Whether a gap, a line end or the end of the text comes next. -/
def gapAhead : Text → Bool
  | [] => true
  | c :: _ => isGap c || c == '\n'

/-- Whether one of the marks around documents stands at the spot. -/
def Spot.atMark (s : Spot) : Bool :=
  s.column == 0 && ("---".toList.isPrefixOf s.rest || "...".toList.isPrefixOf s.rest) &&
    gapAhead (s.rest.drop 3)

/-- Whether nothing more of the document comes. -/
def Spot.atEnd (s : Spot) : Bool := s.rest.isEmpty || s.atMark

/-- Passes over spaces, line ends and comments to the next token, and tells whether a line
ended on the way.  Tabs may stand within a line but not before its first token; in flow
style they may stand anywhere. -/
def toToken (flow : Bool) (tabs comment ended : Bool) (column : Nat) : Text → Spot × Bool
  | [] => (⟨[], column⟩, ended)
  | c :: t =>
    if c = '\n' then toToken flow flow false true 0 t
    else if comment || c == ' ' || c == '\t' && tabs then
      toToken flow tabs comment ended (column + 1) t
    else if c = '#' then toToken flow tabs true ended (column + 1) t
    else (⟨c :: t, column⟩, ended)

/-- The next token in block style. -/
def Spot.next (s : Spot) (tabs : Bool) : Spot × Bool :=
  toToken false tabs false false s.column s.rest

/-- The next token in flow style. -/
def Spot.nextInFlow (s : Spot) : Spot := (toToken true true false false s.column s.rest).1

/-- Whether the entry of a block sequence begins at the spot. -/
def Spot.atDash (s : Spot) : Bool :=
  match s.rest with
  | '-' :: t => gapAhead t
  | _ => false

/-! ## Scalars -/

/-- Text over several lines put on one: a single line end is a space, and of several all but
the first stay. -/
def foldedBreaks (n : Nat) : Text := if n ≤ 1 then [' '] else List.replicate (n - 1) '\n'

/-- The character that an escape in double quotes stands for, by its letter. -/
def escapes : List (Char × Char) :=
  [('0', '\x00'), ('a', '\x07'), ('b', '\x08'), ('t', '\t'), ('\t', '\t'), ('n', '\n'),
    ('v', '\x0b'), ('f', '\x0c'), ('r', '\r'), ('e', '\x1b'), (' ', ' '), ('"', '"'),
    ('/', '/'), ('\\', '\\'), ('N', '\u0085'), ('_', '\u00a0'), ('L', '\u2028'),
    ('P', '\u2029')]

/-- The number of hexadecimal digits behind an escape letter. -/
def escapeDigits : Char → Nat
  | 'x' => 2
  | 'u' => 4
  | 'U' => 8
  | _ => 0

/-- The value of a hexadecimal digit. -/
def hexValue? (c : Char) : Option Nat :=
  if c.isDigit then some (c.toNat - '0'.toNat)
  else if 'a' ≤ c.toLower ∧ c.toLower ≤ 'f' then some (c.toLower.toNat - 'a'.toNat + 10)
  else none

/-- The character with the given code in hexadecimal digits. -/
def charOfHex? (digits : Text) : Option Char := do
  let code ← digits.foldlM (fun n c => (hexValue? c).map (16 * n + ·)) 0
  if code.isValidChar then some (Char.ofNat code) else none

/-- The escape behind a backslash: what it stands for, and its length. -/
def escapeAhead? (t : Text) : Option (Text × Nat) :=
  match t with
  | [] => none
  | '\n' :: u => some ([], 1 + (u.takeWhile isGap).length)
  | c :: u =>
    let n := escapeDigits c
    if 0 < n then
      if (u.take n).length = n then (charOfHex? (u.take n)).map fun d => ([d], 1 + n) else none
    else (escapes.lookup c).map fun d => ([d], 1)

/-- A quoted scalar behind its opening quote: its value, and its length with the closing
quote. -/
def quotedAhead? (double : Bool) : Text → Option (Text × Nat)
  | [] => none
  | c :: t =>
    if c = '"' ∧ double then some ([], 1)
    else if c = '\'' ∧ !double then
      if t.head? = some '\'' then
        (quotedAhead? double (t.drop 1)).map fun r => ('\'' :: r.1, r.2 + 2)
      else some ([], 1)
    else if c = '\\' ∧ double then
      match escapeAhead? t with
      | none => none
      | some e => (quotedAhead? double (t.drop e.2)).map fun r => (e.1 ++ r.1, 1 + e.2 + r.2)
    else if isGap c ∨ c = '\n' then
      let more := t.takeWhile fun d => isGap d || d == '\n'
      let rest := t.drop more.length
      let breaks := (c :: more).count '\n'
      let value := if breaks = 0 then c :: more else foldedBreaks breaks
      if 0 < breaks ∧ Spot.atMark ⟨rest, if more.getLastD c = '\n' then 0 else 1⟩ then none
      else (quotedAhead? double rest).map fun r => (value ++ r.1, 1 + more.length + r.2)
    else (quotedAhead? double t).map fun r => (c :: r.1, 1 + r.2)
termination_by t => t.length
decreasing_by all_goals simp only [List.length_cons, List.length_drop]; omega

/-- Whether the character has a meaning of its own in flow style. -/
def isFlowMark (c : Char) : Bool :=
  c == ',' || c == '[' || c == ']' || c == '\x7b' || c == '\x7d'

/-- Whether the character cannot begin a plain scalar. -/
def isReserved (c : Char) : Bool :=
  isFlowMark c || c == '#' || c == '&' || c == '*' || c == '!' || c == '|' || c == '>' ||
    c == '\'' || c == '"' || c == '%' || c == '@' || c == '\x60'

/-- Whether a plain scalar begins here. -/
def plainStartsAt (flow : Bool) : Text → Bool
  | [] => false
  | c :: t =>
    if isGap c || c == '\n' || isReserved c then false
    else if c = '-' then !gapAhead t
    else if c = '?' ∨ c = ':' then !flow && !gapAhead t
    else true

/-- Whether a colon stands here that flow style does not allow in a plain scalar. -/
def badColonAhead : Text → Bool
  | ':' :: c :: _ => isFlowMark c || c == '?'
  | _ => false

/-- The part of a plain scalar that stands on one line, with the gap behind it. -/
def plainPiece (flow : Bool) : Text → Text
  | [] => []
  | c :: t =>
    if c = '\n' || (c == ':' && gapAhead t) || (flow && (isFlowMark c || badColonAhead (c :: t))) ||
        (isGap c && t.head? == some '#') then []
    else c :: plainPiece flow t

/-- Whether one of the lines that begin in a gap is indented by a tab, looking at the first
`least` columns. -/
def tabIndents (least : Nat) (gap : Text) : Bool :=
  (Text.splitOn '\n' gap).tail.any fun line => (line.take least).contains '\t'

/-- A plain scalar: its value, and its length without what stands behind its last character.
It goes on in a further line that is indented by at least `least`, and not by tabs. -/
def plainAhead (fuel : Nat) (flow : Bool) (least : Nat) (t : Text) : Text × Nat :=
  let piece := (plainPiece flow t).dropEndWhile isGap
  let behind := t.drop piece.length
  match fuel with
  | 0 => (piece, piece.length)
  | fuel + 1 =>
    let between := behind.takeWhile fun c => isGap c || c == '\n'
    let rest := behind.drop between.length
    let column := (between.reverse.takeWhile (· != '\n')).length
    if !between.contains '\n' || Spot.atEnd ⟨rest, column⟩ || rest.head? == some '#' ||
        (!flow && (column < least || tabIndents least between)) || (plainPiece flow rest).isEmpty
    then
      (piece, piece.length)
    else
      let r := plainAhead fuel flow least rest
      (piece ++ foldedBreaks (between.count '\n') ++ r.1, piece.length + between.length + r.2)

/-- A scalar that begins at the spot. -/
def scalarAt? (flow : Bool) (least : Nat) (s : Spot) : Option (Node × Spot) :=
  match s.rest with
  | '"' :: t => (quotedAhead? true t).map fun r => (.scalar r.1 false, s.advance (1 + r.2))
  | '\'' :: t => (quotedAhead? false t).map fun r => (.scalar r.1 false, s.advance (1 + r.2))
  | t =>
    if plainStartsAt flow t then
      let r := plainAhead t.length flow least t
      let after := s.advance r.2
      if flow && badColonAhead after.rest then none else some (.scalar r.1 true, after)
    else none

/-! ## Flow style -/

mutual

/-- A node in flow style that begins at the spot. -/
def flowNode? (fuel : Nat) (s : Spot) : Option (Node × Spot) :=
  match fuel with
  | 0 => none
  | fuel + 1 =>
    match s.rest with
    | '[' :: _ =>
      (flowItems? fuel (s.advance 1).nextInFlow).map fun r => (.sequence r.1, r.2)
    | '\x7b' :: _ =>
      (flowEntries? fuel (s.advance 1).nextInFlow).map fun r => (.mapping r.1, r.2)
    | _ => scalarAt? true 0 s

/-- The items of a sequence up to its closing bracket.  An item with a colon behind it is a
mapping of one entry. -/
def flowItems? (fuel : Nat) (s : Spot) : Option (List Node × Spot) :=
  match fuel with
  | 0 => none
  | fuel + 1 =>
    match s.rest with
    | ']' :: _ => some ([], s.advance 1)
    | _ => do
      let (item, after) ← flowNode? fuel s
      let (value, after) ← flowValue? fuel after.nextInFlow
      let item := match value with
        | some v => Node.mapping [(item, v)]
        | none => item
      match after.rest with
      | ',' :: _ =>
        let (items, stop) ← flowItems? fuel (after.advance 1).nextInFlow
        return (item :: items, stop)
      | ']' :: _ => return ([item], after.advance 1)
      | _ => none

/-- The entries of a mapping up to its closing brace.  A key without a value has the empty
one. -/
def flowEntries? (fuel : Nat) (s : Spot) : Option (List (Node × Node) × Spot) :=
  match fuel with
  | 0 => none
  | fuel + 1 =>
    match s.rest with
    | '\x7d' :: _ => some ([], s.advance 1)
    | _ => do
      let (key, after) ← flowNode? fuel s
      let (value, after) ← flowValue? fuel after.nextInFlow
      let entry := (key, value.getD .empty)
      match after.rest with
      | ',' :: _ =>
        let (entries, stop) ← flowEntries? fuel (after.advance 1).nextInFlow
        return (entry :: entries, stop)
      | '\x7d' :: _ => return ([entry], after.advance 1)
      | _ => none

/-- The value behind a colon, if there is a colon, and the token behind it. -/
def flowValue? (fuel : Nat) (s : Spot) : Option (Option Node × Spot) :=
  match fuel with
  | 0 => none
  | fuel + 1 =>
    match s.rest with
    | ':' :: _ =>
      let inside := (s.advance 1).nextInFlow
      match inside.rest with
      | ',' :: _ | ']' :: _ | '\x7d' :: _ => some (some .empty, inside)
      | _ => (flowNode? fuel inside).map fun r => (some r.1, r.2.nextInFlow)
    | _ => some (none, s)

end

/-! ## Block style -/

/-- A scalar or a node in flow style.  A plain scalar may go on in lines that are indented by
at least `least`. -/
def inlineNode? (fuel least : Nat) (s : Spot) : Option (Node × Spot) :=
  match s.rest with
  | '[' :: _ | '\x7b' :: _ => flowNode? fuel s
  | _ => scalarAt? false least s

/-- The spot behind the colon, if what ends at the spot is a key: a colon follows on the same
line. -/
def behindColon? (s : Spot) : Option Spot :=
  let gap := (s.rest.takeWhile isGap).length
  match s.rest.drop gap with
  | ':' :: t => if gapAhead t then some (s.advance (gap + 1)) else none
  | _ => none

/-- A key that begins at the spot, and the spot behind its colon.  A key stands on one
line. -/
def keyAt? (fuel : Nat) (s : Spot) : Option (Node × Spot) := do
  let (key, after) ← inlineNode? fuel (s.rest.length + 1) s
  if (s.rest.take (s.rest.length - after.rest.length)).contains '\n' then none
  let inside ← behindColon? after
  return (key, inside)

mutual

/-- A node in any style that begins at the spot. -/
def blockNode? (fuel least : Nat) (s : Spot) : Option (Node × Spot) :=
  match fuel with
  | 0 => none
  | fuel + 1 =>
    if s.atDash then
      (blockItems? fuel s.column false s).map fun r => (.sequence r.1, r.2)
    else
      match keyAt? fuel s with
      | some (key, inside) => do
        let (value, after) ← blockValue? fuel s.column inside
        let (entries, stop) ← blockEntries? fuel s.column after
        return (.mapping ((key, value) :: entries), stop)
      | none => inlineNode? fuel least s

/-- The value of an entry of a mapping at the given column.  On the line of its key it is a
scalar or a node in flow style; a sequence below its key may stand at the same column. -/
def blockValue? (fuel column : Nat) (s : Spot) : Option (Node × Spot) :=
  match fuel with
  | 0 => none
  | fuel + 1 =>
    let (token, ended) := s.next true
    if token.atEnd then some (.empty, s)
    else if ended then
      if column < token.column then blockNode? fuel (column + 1) token
      else if token.column = column ∧ token.atDash then
        (blockItems? fuel column true token).map fun r => (.sequence r.1, r.2)
      else some (.empty, s)
    else if (keyAt? fuel token).isSome then none
    else inlineNode? fuel (column + 1) token

/-- The further entries of a mapping at the given column. -/
def blockEntries? (fuel column : Nat) (s : Spot) : Option (List (Node × Node) × Spot) :=
  match fuel with
  | 0 => none
  | fuel + 1 =>
    let (token, ended) := s.next true
    if token.atEnd then some ([], s)
    else if !ended then none
    else if token.column < column then some ([], s)
    else if column < token.column then none
    else do
      let (key, inside) ← keyAt? fuel token
      let (value, after) ← blockValue? fuel column inside
      let (entries, stop) ← blockEntries? fuel column after
      return ((key, value) :: entries, stop)

/-- The items of a sequence at the given column, from the spot of a dash on.  A sequence at
the column of the mapping around it is `hanging`, and ends where the mapping goes on. -/
def blockItems? (fuel column : Nat) (hanging : Bool) (s : Spot) : Option (List Node × Spot) :=
  match fuel with
  | 0 => none
  | fuel + 1 => do
    let inside := s.advance 1
    let (token, _) := inside.next false
    let (item, after) ←
      if token.atEnd ∨ token.column ≤ column then some (Node.empty, inside)
      else blockNode? fuel (column + 1) token
    let (token, ended) := after.next true
    if token.atEnd then return ([item], after)
    else if !ended then none
    else if token.column = column ∧ token.atDash then
      let (items, stop) ← blockItems? fuel column hanging token
      return (item :: items, stop)
    else if token.column < column ∨ (hanging ∧ token.column = column) then
      return ([item], after)
    else none

end

/-! ## Documents -/

/-- The text with every kind of line end written as a line feed. -/
def normalizeBreaks : Text → Text
  | '\r' :: '\n' :: t => '\n' :: normalizeBreaks t
  | c :: t =>
    (if c == '\r' || c == '\u0085' || c == '\u2028' || c == '\u2029' then '\n' else c) ::
      normalizeBreaks t
  | [] => []

/-- Whether the character may stand in a file. -/
def isReadable (c : Char) : Bool :=
  let n := c.toNat
  n == 9 || n == 10 || n == 13 || (0x20 ≤ n && n ≤ 0x7E) || n == 0x85 ||
    (0xA0 ≤ n && n ≤ 0xFFFD && n != 0xFEFF) || 0x10000 ≤ n

/-- Whether nothing but comments stands behind the document. -/
def endsDocument (s : Spot) : Bool :=
  let (token, ended) := s.next true
  if token.rest.isEmpty then true
  else if ended && token.atMark && token.rest.head? == some '.' then
    ((token.advance 3).next true).1.rest.isEmpty
  else false

/-- The node of a document, and the spot behind it.  Behind the mark that begins a document
no mapping or sequence in block style may stand on the same line. -/
def documentAt? (fuel : Nat) (s : Spot) : Option (Node × Spot) :=
  let (token, _) := s.next false
  if token.atMark && token.rest.head? == some '-' then
    let inside := token.advance 3
    let (token, ended) := inside.next true
    if token.atEnd then some (.empty, inside)
    else if ended then blockNode? fuel 0 token
    else if token.atDash || (keyAt? fuel token).isSome then none
    else inlineNode? fuel 0 token
  else if token.atEnd then some (.empty, token)
  else blockNode? fuel 0 token

/-- The tree that the text of a file describes, if it describes one. -/
def Node.parse? (t : Text) : Option Node := do
  let t := if t.startsWith '\uFEFF' then t.drop 1 else t
  if !t.all isReadable then none
  let t := normalizeBreaks t
  let (node, after) ← documentAt? (4 * t.length + 8) ⟨t, 0⟩
  if endsDocument after then some node else none

end StyleAudit.Yaml
