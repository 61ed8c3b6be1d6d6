import StyleAudit.Text.Basic

/-!
# The words of a command line

A command line is a list of words.  Its `Grammar` says, for each command, which options and
values it takes and which commands stand under it.  The words are read from left to right, and
the first that does not fit ends the reading with a `Refusal`.

* A word that begins with `--` is a long option, and its value is what stands behind a `=` or
  else the next word.
* A word that begins with `-` is a cluster of short options.  The last of them may take a value:
  the rest of the word, with or without a `=`, or else the next word.
* Behind the word `--` all words are values.
* A next word is only taken as the value of an option if it does not look like an option.  The
  word `-` is a value.
* The name of a command goes on with the grammar of that command, for all words behind it.

What is read is one `Given` for each command on the way, the outermost first
(`Grammar.read`).
-/

namespace StyleAudit.CommandLine

/-! ## Grammars -/

/-- The values that an option or a command takes. -/
inductive ValueKind where
  /-- Any text. -/
  | any
  /-- A path, which is not empty. -/
  | path
  /-- A natural number of 64 bits. -/
  | number
  /-- One of these names. -/
  | oneOf (names : List String)

/-- The number that a text is in decimal digits, perhaps with a plus sign, if it has 64 bits. -/
def numberOf? (t : Text) : Option Nat :=
  let digits := match t with
    | '+' :: ds => ds
    | ds => ds
  if digits.isEmpty || !digits.all Char.isDigit then none
  else
    let n := digits.foldl (fun n c => 10 * n + (c.toNat - '0'.toNat)) 0
    if n < Nat.pow 2 64 then some n else none

/-- Whether a text is a value of the kind. -/
def ValueKind.accepts : ValueKind → Text → Bool
  | any, _ => true
  | path, t => !t.isEmpty
  | number, t => (numberOf? t).isSome
  | oneOf names, t => names.contains (String.ofList t)

/-- Why the words are not a command to run. -/
inductive Refusal where
  /-- They do not fit the grammar. -/
  | misuse
  /-- They ask how the program is used. -/
  | help
  /-- They ask for the version of the program. -/
  | version
  deriving DecidableEq, Repr

/-- What an option does. -/
inductive Effect where
  /-- It is there or not. -/
  | flag
  /-- It takes a value. -/
  | value (kind : ValueKind)
  /-- It takes a value each time it occurs. -/
  | values (kind : ValueKind)
  /-- It ends the reading. -/
  | stop (why : Refusal)

/-- An option. -/
structure Switch where
  /-- Its name behind `--`. -/
  long : String
  /-- Its name behind `-`. -/
  short : Option Char := none
  effect : Effect

/-- Whether the option takes a value. -/
def Switch.takesValue (s : Switch) : Bool :=
  match s.effect with
  | .value _ | .values _ => true
  | .flag | .stop _ => false

/-- The options, values and commands that a command takes. -/
structure Grammar where
  switches : List Switch := []
  /-- The commands under this one; if there are any, one has to follow. -/
  commands : List (String × Grammar) := []
  /-- The kinds of the values that it takes. -/
  values : List ValueKind := []
  /-- The kind of any further values, if there may be some. -/
  further : Option ValueKind := none
  /-- The number of values that it has to be given. -/
  required : Nat := 0

/-! ## What is given -/

/-- The options and values given to one command. -/
structure Given where
  /-- The options under their long names, with their values; a flag has an empty one. -/
  options : List (String × Text) := []
  values : List Text := []
  deriving Inhabited

namespace Given

/-- Whether an option is given. -/
def has (g : Given) (name : String) : Bool := (g.options.lookup name).isSome

/-- The value of an option. -/
def value? (g : Given) (name : String) : Option Text := g.options.lookup name

/-- All values of an option, in order. -/
def valuesOf (g : Given) (name : String) : List Text :=
  g.options.filterMap fun o => if o.1 == name then some o.2 else none

/-- Adds an option with a value that it may have.  Only an option with `values` may be given
twice. -/
def give (g : Given) (s : Switch) (value : Text) : Except Refusal Given :=
  let added := { g with options := g.options ++ [(s.long, value)] }
  match s.effect with
  | .flag => if g.has s.long then .error .misuse else .ok added
  | .value kind => if g.has s.long || !kind.accepts value then .error .misuse else .ok added
  | .values kind => if kind.accepts value then .ok added else .error .misuse
  | .stop why => .error why

/-- Adds a value that the command may have in this place. -/
def addValue (g : Given) (grammar : Grammar) (value : Text) : Except Refusal Given :=
  match grammar.values[g.values.length]? <|> grammar.further with
  | some kind =>
    if kind.accepts value then .ok { g with values := g.values ++ [value] } else .error .misuse
  | none => .error .misuse

/-- What is given to a command that ends here, if that is enough. -/
def finish (g : Given) (grammar : Grammar) : Except Refusal Given :=
  if grammar.commands.isEmpty && grammar.required ≤ g.values.length then .ok g
  else .error .misuse

end Given

/-! ## Reading words -/

/-- Whether a word looks like an option. -/
def looksLikeOption : Text → Bool
  | '-' :: _ :: _ => true
  | _ => false

/-- Reads a long option, without its dashes.  If its value is still to come, the option is
handed on. -/
def readLong (grammar : Grammar) (g : Given) (word : Text) :
    Except Refusal (Given × Option Switch) :=
  let name := word.takeWhile (· != '=')
  match grammar.switches.find? (fun s => s.long.toList == name), word.drop name.length with
  | none, _ => .error .misuse
  | some s, [] => if s.takesValue then .ok (g, some s) else (g.give s []).map (·, none)
  | some s, _ :: value => if s.takesValue then (g.give s value).map (·, none) else .error .misuse

/-- Reads a cluster of short options, without its dash.  If the value of the last one is still
to come, the option is handed on. -/
def readShort (grammar : Grammar) (g : Given) : Text → Except Refusal (Given × Option Switch)
  | [] => .ok (g, none)
  | c :: rest =>
    match grammar.switches.find? (fun s => s.short == some c) with
    | none => .error .misuse
    | some s =>
      if s.takesValue then
        match rest with
        | [] => .ok (g, some s)
        | '=' :: value => (g.give s value).map (·, none)
        | value => (g.give s value).map (·, none)
      else do
        readShort grammar (← g.give s []) rest

/-- Reads a word that looks like an option. -/
def readOption (grammar : Grammar) (g : Given) : Text → Except Refusal (Given × Option Switch)
  | '-' :: '-' :: word => readLong grammar g word
  | word => readShort grammar g (word.drop 1)

/-- What asking for help with the commands of these names comes to. -/
def helpWith (grammar : Grammar) : List Text → Refusal
  | [] => .help
  | name :: rest =>
    match grammar.commands.lookup (String.ofList name) with
    | some inner => helpWith inner rest
    | none => .misuse

/-- Reads the words that follow the name of a command, where `g` has been given to it by the
words before.  The answer holds what is given to this command and to those it goes on with,
under their names. -/
def readFrom (grammar : Grammar) (name : String) (g : Given) :
    List Text → Except Refusal (List (String × Given))
  | [] => return [(name, ← g.finish grammar)]
  | word :: rest =>
    if word = ['-', '-'] then do
      let g ← rest.foldlM (fun g value => g.addValue grammar value) g
      return [(name, ← g.finish grammar)]
    else if looksLikeOption word then
      match readOption grammar g word, rest with
      | .error why, _ => .error why
      | .ok (g, none), rest => readFrom grammar name g rest
      | .ok (_, some _), [] => .error .misuse
      | .ok (g, some s), value :: rest =>
        if looksLikeOption value then .error .misuse
        else do
          readFrom grammar name (← g.give s value) rest
    else if grammar.commands.isEmpty then do
      readFrom grammar name (← g.addValue grammar word) rest
    else
      match grammar.commands.lookup (String.ofList word) with
      | some inner => return (name, g) :: (← readFrom inner (String.ofList word) {} rest)
      | none => .error (if word = "help".toList then helpWith grammar rest else .misuse)
termination_by words => words.length

/-- What the words of a command line give to the program, which has the empty name, and to the
commands that they go on with. -/
def Grammar.read (grammar : Grammar) (words : List Text) :
    Except Refusal (List (String × Given)) :=
  readFrom grammar "" {} words

end StyleAudit.CommandLine
