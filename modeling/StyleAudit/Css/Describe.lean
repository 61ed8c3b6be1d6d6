import StyleAudit.Css.Rule
import StyleAudit.Text.Quoted
import StyleAudit.Decimal.Shortest

/-!
# How messages name a token

A message about an unexpected token names the token in full: its kind, and in brackets what
it holds, with names quoted (`Text.quoted`) and numbers written with the fewest digits that
read back in single precision.

Numbers are written with a point and at least one digit behind it, from one ten-thousandth
up to below ten to the sixteenth; outside of that they are written with an exponent.
-/

namespace StyleAudit.Css

/-! ## Numbers -/

/-- Digits with the point `before` digits from the left, at least one digit on either side
of it. -/
def positionalText (digits : Text) (before : Int) : Text :=
  if before ≤ 0 then "0.".toList ++ List.replicate (-before).toNat '0' ++ digits
  else
    let whole := digits.take before.toNat
    let rest := digits.drop before.toNat
    whole ++ List.replicate (before.toNat - whole.length) '0' ++
      '.' :: (if rest.isEmpty then ['0'] else rest)

/-- Digits with a point behind the first and an exponent; no point behind a lone digit. -/
def scientificText (digits : Text) (exponent : Int) : Text :=
  digits.take 1 ++ (if digits.length ≤ 1 then [] else '.' :: digits.drop 1) ++
    'e' :: (toString exponent).toList

/-- A single-precision number as messages write it. -/
def singleText (x : Float32) : String :=
  if x.isNaN then "NaN"
  else
    let sign := if x.toBits >>> 31 = 1 then "-" else ""
    if x.isInf then sign ++ "inf"
    else if x == 0 then sign ++ "0.0"
    else
      let d := Decimal.shortestSingle x
      let digits := Nat.toDigits 10 d.digits
      let exponent := digits.length + d.exponent - 1
      sign ++ String.ofList
        (if -4 ≤ exponent ∧ exponent < 16 then positionalText digits (exponent + 1)
          else scientificText digits exponent)

/-- A truth value as messages write it. -/
def boolText (b : Bool) : String := if b then "true" else "false"

/-- The whole number that a numeral is, as messages write it. -/
def wholeText : Option Int → String
  | some n => "Some(" ++ toString n ++ ")"
  | none => "None"

namespace Numeral

/-- The number as single precision keeps it. -/
def single (n : Numeral) : Float32 := n.value.toFloat32

/-- The number as a percentage, in single precision, where a hundred percent are one. -/
def singlePart (n : Numeral) : Float32 := (n.value / 100.0).toFloat32

end Numeral

/-! ## Tokens -/

/-- A kind of token that holds named parts. -/
def partsText (kind : String) (parts : List (String × String)) : String :=
  kind ++ " \x7b " ++ ", ".intercalate (parts.map fun p => p.1 ++ ": " ++ p.2) ++ " \x7d"

/-- A kind of token that holds a text. -/
def holdsText (kind : String) (t : Text) : String := kind ++ "(" ++ t.quoted ++ ")"

/-- The name of a token in messages. -/
def Token.describe : Token → String
  | ident name => holdsText "Ident" name
  | atKeyword name => holdsText "AtKeyword" name
  | hash name => holdsText "Hash" name
  | idHash name => holdsText "IDHash" name
  | string value => holdsText "QuotedString" value
  | badString value => holdsText "BadString" value
  | url value => holdsText "UnquotedUrl" value
  | badUrl contents => holdsText "BadUrl" contents
  | function name => holdsText "Function" name
  | delim c => "Delim(" ++ Text.quotedChar c ++ ")"
  | number n => partsText "Number"
      [("has_sign", boolText n.sign.isSome), ("value", singleText n.single),
        ("int_value", wholeText n.int?)]
  | percentage n => partsText "Percentage"
      [("has_sign", boolText n.sign.isSome), ("unit_value", singleText n.singlePart),
        ("int_value", wholeText n.int?)]
  | dimension n unit => partsText "Dimension"
      [("has_sign", boolText n.sign.isSome), ("value", singleText n.single),
        ("int_value", wholeText n.int?), ("unit", unit.quoted)]
  | space => "WhiteSpace"
  | comment => "Comment"
  | colon => "Colon"
  | semicolon => "Semicolon"
  | comma => "Comma"
  | includeMatch => "IncludeMatch"
  | dashMatch => "DashMatch"
  | prefixMatch => "PrefixMatch"
  | suffixMatch => "SuffixMatch"
  | substringMatch => "SubstringMatch"
  | commentOpen => "CDO"
  | commentClose => "CDC"
  | opening .round => "ParenthesisBlock"
  | opening .square => "SquareBracketBlock"
  | opening .curly => "CurlyBracketBlock"
  | closing .round => "CloseParenthesis"
  | closing .square => "CloseSquareBracket"
  | closing .curly => "CloseCurlyBracket"

/-- What a fault says. -/
def Fault.message : Fault → String
  | unexpectedToken t => "unexpected token " ++ t.describe
  | unexpectedEnd => "unexpected end of input"
  | blockInValue => "invalid rule"
  | customPropertyHead => "invalid qualified rule"

end StyleAudit.Css
