import StyleAudit.Text.Basic

/-!
# Blanks

A *blank* is a character with the Unicode property `White_Space`.  Values,
selectors and lines are trimmed of blanks at both ends, and the first word of an
animation shorthand ends at one.  The tokenizer has a narrower notion of its own
(`Css.isSpace`), because a stylesheet's grammar knows five of them only.

The zero-width space, the byte order mark and the control characters `U+001C`
to `U+001F` are not blanks.
-/

namespace StyleAudit

/-- The characters with the Unicode property `White_Space`. -/
def isBlank (c : Char) : Bool :=
  let n := c.toNat
  (9 ≤ n && n ≤ 13) || n == 0x20 || n == 0x85 || n == 0xA0 || n == 0x1680 ||
    (0x2000 ≤ n && n ≤ 0x200A) || n == 0x2028 || n == 0x2029 || n == 0x202F ||
    n == 0x205F || n == 0x3000

namespace Text

/-- The text without the blanks at its end. -/
def trimEnd (t : Text) : Text := t.dropEndWhile isBlank

/-- The text without the blanks at either end. -/
def trim (t : Text) : Text := t.stripWhile isBlank

/-- The first run of characters without a blank, if the text has one. -/
def firstWord? (t : Text) : Option Text :=
  match t.dropWhile isBlank with
  | [] => none
  | c :: r => some ((c :: r).takeWhile fun x => !isBlank x)

end Text
end StyleAudit
