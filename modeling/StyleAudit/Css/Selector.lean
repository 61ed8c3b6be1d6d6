import StyleAudit.Text.Blank

/-!
# Selectors as text

Whether a class or an id is in use is asked of the *fragments* of a selector: the stretches
between blanks, commas and the combinators `>`, `+` and `~`.  Before a selector is cut into
fragments its pseudo-classes and pseudo-elements are taken out: one or two colons, a name,
and the parentheses behind it up to the first that closes.

* `fragments_flatten` --- the fragments, put together, are the text without the separators;
* `ne_nil_of_mem_stretches`, `not_of_mem_of_mem_stretches` --- a fragment is not empty and
  holds no separator.
-/

namespace StyleAudit.Css

/-! ## Pseudo-classes and pseudo-elements -/

/-- The characters in the name of a pseudo-class. -/
def isPseudoNameChar (c : Char) : Bool := c.isAlpha || c == '-'

/-- The length of the arguments in parentheses at the front of the text, up to the first
closing parenthesis; zero if there are none. -/
def argumentsLength : Text → Nat
  | '(' :: t =>
    let inside := (t.takeWhile (· != ')')).length
    if inside < t.length then inside + 2 else 0
  | _ => 0

/-- The length of a pseudo-class behind its first colon; zero if there is none. -/
def pseudoLength (t : Text) : Nat :=
  let colons := if t.head? = some ':' then 1 else 0
  let name := ((t.drop colons).takeWhile isPseudoNameChar).length
  if name = 0 then 0
  else colons + name + argumentsLength (t.drop (colons + name))

/-- The selector without its pseudo-classes and pseudo-elements. -/
def stripPseudo : Text → Text
  | [] => []
  | c :: t =>
    let n := pseudoLength t
    if c = ':' ∧ 0 < n then stripPseudo (t.drop n) else c :: stripPseudo t
termination_by t => t.length
decreasing_by
  · simp only [List.length_cons, List.length_drop]; omega
  · simp only [List.length_cons]; omega

/-! ## Fragments -/

/-- Whether the character stands between fragments. -/
def separatesFragments (c : Char) : Bool :=
  isBlank c || c == ',' || c == '>' || c == '+' || c == '~'

/-- The stretches between characters that `p` accepts, the empty ones left out. -/
def stretches (p : Char → Bool) : Text → List Text
  | [] => []
  | c :: t =>
    if p c then stretches p t
    else (c :: t.takeWhile fun x => !p x) :: stretches p (t.dropWhile fun x => !p x)
termination_by t => t.length
decreasing_by
  · simp only [List.length_cons]; omega
  · have := (List.dropWhile_sublist (l := t) fun x => !p x).length_le
    simp only [List.length_cons]; omega

/-- The fragments of a selector, in order. -/
def fragments (selector : Text) : List Text := stretches separatesFragments selector

theorem stretches_flatten (p : Char → Bool) (t : Text) :
    (stretches p t).flatten = t.filter fun c => !p c := by
  fun_induction stretches p t with
  | case1 => rfl
  | case2 c t h ih => simpa [h] using ih
  | case3 c t h ih =>
    have hs : t.filter (fun c => !p c) =
        t.takeWhile (fun x => !p x) ++ (t.dropWhile fun x => !p x).filter fun c => !p c := by
      conv => lhs; rw [← List.takeWhile_append_dropWhile (p := fun x => !p x) (l := t)]
      rw [List.filter_append]
      congr 1
      exact List.filter_eq_self.2 fun a ha => List.all_eq_true.1 List.all_takeWhile a ha
    simp [h, ih, hs]

theorem ne_nil_of_mem_stretches {p : Char → Bool} {t f : Text} (h : f ∈ stretches p t) :
    f ≠ [] := by
  fun_induction stretches p t with
  | case1 => simp at h
  | case2 c t hp ih => exact ih h
  | case3 c t hp ih =>
    rcases List.mem_cons.1 h with h | h
    · exact h ▸ List.cons_ne_nil _ _
    · exact ih h

theorem not_of_mem_of_mem_stretches {p : Char → Bool} {t f : Text} (h : f ∈ stretches p t)
    {c : Char} (hc : c ∈ f) : p c = false := by
  fun_induction stretches p t with
  | case1 => simp at h
  | case2 d t hp ih => exact ih h
  | case3 d t hp ih =>
    rcases List.mem_cons.1 h with h | h
    · subst h
      rcases List.mem_cons.1 hc with hc | hc
      · simpa [hc] using hp
      · simpa using List.all_eq_true.1 List.all_takeWhile c hc
    · exact ih h

theorem fragments_flatten (t : Text) :
    (fragments t).flatten = t.filter fun c => !separatesFragments c := stretches_flatten _ t

/-! ## Quotes around a name -/

/-- The name without the quotes, single or double, around it, however many there are. -/
def unquote (name : Text) : Text := name.stripWhile fun c => c == '\'' || c == '"'

end StyleAudit.Css
