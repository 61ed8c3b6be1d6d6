import StyleAudit.Text.Basic

/-!
# Numerals

A `Numeral` is a number as a stylesheet writes it: an optional sign, digits before
and after a point, and an optional exponent.  It keeps the digits themselves, so
that nothing about it depends on floating-point arithmetic; `Numeral.value` gives
the number it denotes, and `Numeral.int?` the whole number it is, if it is
written as one.

`Numeral.scan` reads a numeral from the front of a text and answers with the
number of characters it takes.
-/

namespace StyleAudit.Css

/-- A written sign. -/
inductive Sign where
  | plus
  | minus
  deriving DecidableEq, Repr

/-- The sign that the character writes. -/
def Sign.ofChar? : Char → Option Sign
  | '+' => some .plus
  | '-' => some .minus
  | _ => none

/-- The sign at the front of a text, if it has one. -/
def Sign.ahead? (t : Text) : Option Sign := t.head?.bind Sign.ofChar?

/-- A number as it is written. -/
structure Numeral where
  /-- The sign, if one is written. -/
  sign : Option Sign
  /-- The digits before the point. -/
  whole : Text
  /-- The digits after the point; none if there is no point. -/
  fraction : Text
  /-- The sign and the digits of the exponent, if there is one. -/
  exponent : Option (Option Sign × Text)
  deriving DecidableEq, Repr

/-- Whether a text begins with a digit. -/
def digitAhead : Text → Bool
  | c :: _ => c.isDigit
  | [] => false

namespace Numeral

/-! ## What a numeral denotes -/

/-- The number that a run of digits writes. -/
def natOfDigits (digits : Text) : Nat :=
  digits.foldl (fun n c => 10 * n + (c.toNat - '0'.toNat)) 0

/-- Whether the numeral has neither point nor exponent. -/
def isWhole (n : Numeral) : Bool := n.fraction.isEmpty && n.exponent.isNone

/-- The whole number that the numeral writes, brought into the range of 32-bit
integers; none if it has a point or an exponent. -/
def int? (n : Numeral) : Option Int :=
  if n.isWhole then
    let size : Int := natOfDigits n.whole
    let v := if n.sign = some .minus then -size else size
    some (max (-2147483648) (min 2147483647 v))
  else none

/-- One digit as a floating-point number. -/
private def digit (c : Char) : Float := Float.ofNat (c.toNat - '0'.toNat)

/-- A run of digits added up from the left, in floating point. -/
private def floatOfDigits (digits : Text) : Float :=
  digits.foldl (fun x c => x * 10.0 + digit c) 0.0

/-- A run of digits behind the point added up from the left; each weighs a tenth
of the one before it. -/
private def floatOfFraction (digits : Text) : Float :=
  (digits.foldl (fun (x, weight) c => (x + digit c * weight, weight * 0.1)) (0.0, 0.1)).1

/-- The number the numeral denotes.  The digits are added up one by one in double
precision, so the last bits are those of that sum. -/
def value (n : Numeral) : Float :=
  let sign := if n.sign = some .minus then -1.0 else 1.0
  let v := sign * (floatOfDigits n.whole + floatOfFraction n.fraction)
  match n.exponent with
  | none => v
  | some (s, digits) =>
    v * Float.pow 10.0 ((if s = some .minus then -1.0 else 1.0) * floatOfDigits digits)

/-! ## Reading a numeral -/

/-- The digits behind a point at the front of the text; none unless a digit
follows the point. -/
def fractionAhead : Text → Text
  | '.' :: t => t.takeWhile Char.isDigit
  | _ => []

/-- The exponent at the front of the text, with the number of characters it takes.
An `e` counts as one only if digits follow it, with at most a sign between. -/
def exponentAhead : Text → Option (Option Sign × Text) × Nat
  | c :: t =>
    if c = 'e' ∨ c = 'E' then
      let sign := Sign.ahead? t
      let digits := (t.drop sign.toList.length).takeWhile Char.isDigit
      if digits.isEmpty then (none, 0)
      else (some (sign, digits), 1 + sign.toList.length + digits.length)
    else (none, 0)
  | [] => (none, 0)

/-- The numeral at the front of the text, and the number of characters it takes. -/
def scan (t : Text) : Numeral × Nat :=
  let sign := Sign.ahead? t
  let t := t.drop sign.toList.length
  let whole := t.takeWhile Char.isDigit
  let t := t.drop whole.length
  let fraction := fractionAhead t
  let pointed := if fraction.isEmpty then 0 else fraction.length + 1
  let exponent := exponentAhead (t.drop pointed)
  (⟨sign, whole, fraction, exponent.1⟩,
    sign.toList.length + whole.length + pointed + exponent.2)

end Numeral
end StyleAudit.Css
