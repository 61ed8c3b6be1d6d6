import StyleAudit.Css.Selector
import StyleAudit.Extract.Sheet

/-!
# Selectors that a page does not use

A fragment that names a class or an id is *referenced* by a page if the page has an attribute
`class` or `id` with exactly that name as its value, in quotes of either kind.  This is a
search in the text of the page; an attribute with several classes references none of them.
Fragments of any other kind always count as referenced.

`unusedSelectors` lists the fragments of the selectors at the top level that are not
referenced, each once, in the order in which they first occur.
-/

namespace StyleAudit.Extract

open Css

/-- Whether the page has the attribute with exactly the given value. -/
def hasAttribute (html : Text) (kind : String) (value : Text) : Bool :=
  let set (quote : Char) : Text := kind.toList ++ '=' :: quote :: value ++ [quote]
  Text.occursIn (set '"') html || Text.occursIn (set '\'') html

/-- Whether the page references the fragment. -/
def isReferenced (html : Text) : Text → Bool
  | '.' :: name => hasAttribute html "class" name
  | '#' :: name => hasAttribute html "id" name
  | _ => true

/-- The fragments of the selectors at the top level, each once, in the order in which they
first occur. -/
def selectorFragments (rules : List Rule) : List Text :=
  (rules.flatMap fun
    | .qualified r => fragments (stripPseudo r.selector)
    | _ => []).eraseDups

/-- The fragments that the page does not reference. -/
def unusedSelectors (bytes : List UInt8) (html : Text) : Except Failure (List Text) := do
  return (selectorFragments (← readSheet bytes)).filter fun f => !isReferenced html f

end StyleAudit.Extract
