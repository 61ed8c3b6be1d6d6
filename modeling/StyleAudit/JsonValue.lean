/-!
# JSON on several lines

Answers for machines are JSON, two blanks deeper at each level, with every member on a line
of its own; an array or object without members is written without a line between its
brackets.  Strings keep every character but the quote, the backslash and the controls below
`U+0020`.
-/

namespace StyleAudit

/-- A JSON value.  The members of an object are written in the order given. -/
inductive JsonValue where
  | null
  | number (n : Nat)
  | string (s : String)
  | array (items : List JsonValue)
  | object (members : List (String × JsonValue))
  deriving Inhabited

namespace JsonValue

/-- A value that may be missing; null if it is. -/
def orNull {α : Type} (f : α → JsonValue) : Option α → JsonValue
  | some a => f a
  | none => null

/-- One character inside a JSON string. -/
def escaped (c : Char) : String :=
  if c = '"' then "\\\""
  else if c = '\\' then "\\\\"
  else if c = '\n' then "\\n"
  else if c = '\r' then "\\r"
  else if c = '\t' then "\\t"
  else if c = '\x08' then "\\b"
  else if c = '\x0c' then "\\f"
  else if c.toNat < 0x20 then
    "\\u00" ++ String.ofList [Nat.digitChar (c.toNat / 16), Nat.digitChar (c.toNat % 16)]
  else c.toString

/-- A string in quotes. -/
def quote (s : String) : String := "\"" ++ String.join (s.toList.map escaped) ++ "\""

/-- The start of a line at the given depth. -/
def indent (depth : Nat) : String := "\n" ++ "".pushn ' ' (2 * depth)

/-- Members between brackets, each on a line of its own. -/
def bracketed (opening closing : String) (depth : Nat) (members : List String) : String :=
  if members.isEmpty then opening ++ closing
  else
    opening ++ indent (depth + 1) ++ ("," ++ indent (depth + 1)).intercalate members ++
      indent depth ++ closing

mutual

/-- The value, on lines that begin at the given depth. -/
def render (depth : Nat) : JsonValue → String
  | null => "null"
  | number n => toString n
  | string s => quote s
  | array items => bracketed "[" "]" depth (renderItems (depth + 1) items)
  | object members => bracketed "\x7b" "\x7d" depth (renderMembers (depth + 1) members)

/-- The items of an array. -/
def renderItems (depth : Nat) : List JsonValue → List String
  | [] => []
  | v :: vs => v.render depth :: renderItems depth vs

/-- The members of an object. -/
def renderMembers (depth : Nat) : List (String × JsonValue) → List String
  | [] => []
  | (key, v) :: ms => (quote key ++ ": " ++ v.render depth) :: renderMembers depth ms

end

/-- The value as a text of several lines. -/
def pretty (v : JsonValue) : String := v.render 0

end JsonValue
end StyleAudit
