import StyleAudit.Text.Split

/-!
# Lines

Two readings of "line" are in use.  `Text.splitLines` cuts at every line feed and
keeps whatever stands between, a carriage return included; the semicolon checks
read lines this way.  `Text.sourceLines` is how a person's editor counts: a line
feed *ends* a line, so text that ends in one has no further empty line, and a
carriage return right before it belongs to the line end.
-/

namespace StyleAudit.Text

/-- The stretches between line feeds, in order. -/
def splitLines (t : Text) : List Text := splitOn '\n' t

/-- A line without the carriage return that ends it. -/
def dropReturn (l : Text) : Text := if l.endsIn '\r' then l.dropLast else l

/-- The lines that the stretches between line feeds are: a stretch with a line feed behind
it is a line, and so is the last one unless it is empty. -/
def endedLines : List Text → List Text
  | [] => []
  | [l] => if l.isEmpty then [] else [l]
  | l :: ls => dropReturn l :: endedLines ls

/-- The lines of a source file: each ends at a line feed, of which a carriage
return before it is part, or at the end of the text. -/
def sourceLines (t : Text) : List Text := endedLines (splitLines t)

/-- The first source line that contains `needle`, with its number counted
from 1. -/
def locate? (needle : Text) (t : Text) : Option (Nat × Text) :=
  (t.sourceLines.zipIdx 1).findSome? fun (l, n) =>
    if needle.occursIn l then some (n, l) else none

end StyleAudit.Text
