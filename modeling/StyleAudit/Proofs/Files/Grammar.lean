import StyleAudit.Files.Glob
import StyleAudit.Proofs.Text.Trim

/-!
# Which texts are wildcard patterns

The compiler of wildcard patterns carries a position, the character before and the tokens so far.
Whether it succeeds depends on very little of that: on the text that is left, and on whether a
component of the pattern begins there, for that is where `**` may stand.  `Written` says it with
one rule for each thing a pattern is made of.

* `compileFrom_of_star`, `compileFrom_of_stars` and so on --- what the compiler does with the text
  at its front, one equation for each rule of `Written`;
* `exists_compile_iff` --- a text compiles exactly if it is written by these rules;
* `bracketAhead?_eq_some_iff` --- what a bracket opens, told without counting;
* `Written.append_slash_cons`, `Written.of_append_slash_cons` --- patterns may be joined by a slash,
  and cut at a slash that has no closing bracket behind it, for then it is in no class;
* `Written.slashes_append`, `Written.append_slashes` --- slashes in front of a pattern and behind
  it do no harm;
* `Written.not_fresh_iff` --- what may stand at the beginning of a component may stand anywhere,
  except for `**`.
-/

namespace StyleAudit.Glob

/-! ## The compiler, one step at a time -/

section Compiler

variable {position : Nat} {before : Option Char} {tokens : List Token} {t : Text}

theorem compileFrom_nil : compileFrom position before tokens [] = .ok tokens.reverse := by
  rw [compileFrom]

/-- A star with no star behind it. -/
theorem compileFrom_of_star (h : t.head? ≠ some '*') :
    compileFrom position before tokens ('*' :: t) =
      compileFrom (position + 1) (some '*') (.sequence :: tokens) t := by
  have hnone : t.takeWhile (· == '*') = [] := by
    cases t with
    | nil => rfl
    | cons c t => exact List.takeWhile_cons_of_neg (by simpa using h)
  rw [compileFrom, if_pos rfl, hnone]
  rfl

/-- Two stars with no third behind them are looked at together. -/
theorem length_stars (h : t.head? ≠ some '*') :
    (('*' :: t).takeWhile (· == '*')).length = 1 := by
  rw [List.takeWhile_cons_of_pos rfl]
  cases t with
  | nil => rfl
  | cons c t => rw [List.takeWhile_cons_of_neg (by simpa using h)]; rfl

/-- Two stars at the end of a pattern, where a component begins. -/
theorem compileFrom_of_lastStars (h : before = none ∨ before = some '/') :
    compileFrom position before tokens ['*', '*'] = .ok (addDirectories tokens).reverse := by
  rw [compileFrom, if_pos rfl, length_stars (by simp)]
  simp only [Nat.lt_irrefl, if_false, Nat.one_ne_zero, if_pos h]
  rfl

/-- Two stars that are a whole component. -/
theorem compileFrom_of_stars (h : before = none ∨ before = some '/') :
    compileFrom position before tokens ('*' :: '*' :: '/' :: t) =
      compileFrom (position + 3) (some '/') (addDirectories tokens) t := by
  rw [compileFrom, if_pos rfl, length_stars (by simp)]
  simp only [Nat.lt_irrefl, if_false, Nat.one_ne_zero, if_pos h]
  rfl

/-- Two stars inside a component. -/
theorem compileFrom_of_misplaced {c : Char} (hc : c ≠ '/') (h : t.head? ≠ some '*') :
    compileFrom position (some c) tokens ('*' :: '*' :: t) =
      .error ⟨position - 1, .partialComponent⟩ := by
  rw [compileFrom, if_pos rfl, length_stars h]
  simp only [Nat.lt_irrefl, if_false, Nat.one_ne_zero, Option.some.injEq, hc, or_self, reduceCtorEq]

theorem compileFrom_of_bracket {token : Token} {n : Nat} (h : bracketAhead? t = some (token, n)) :
    compileFrom position before tokens ('[' :: t) =
      compileFrom (position + 1 + n) (some ']') (token :: tokens) (t.drop n) := by
  rw [compileFrom, if_neg (by decide), if_pos rfl, h]

theorem compileFrom_of_char {c : Char} (hstar : c ≠ '*') (hbracket : c ≠ '[') :
    compileFrom position before tokens (c :: t) =
      compileFrom (position + 1) (some c) ((if c = '?' then .any else .literal c) :: tokens) t := by
  rw [compileFrom, if_neg hstar, if_neg hbracket]

end Compiler

/-! ## The rules -/

/-- The text is a wildcard pattern, or what is left of one.  It is `fresh` if a component of the
pattern begins with it. -/
inductive Written : Bool → Text → Prop
  | nil {fresh : Bool} : Written fresh []
  | star {fresh : Bool} {t : Text} : t.head? ≠ some '*' → Written false t → Written fresh ('*' :: t)
  | lastStars : Written true ['*', '*']
  | stars {t : Text} : Written true t → Written true ('*' :: '*' :: '/' :: t)
  | bracket {fresh : Bool} {t : Text} {token : Token} {n : Nat} :
    bracketAhead? t = some (token, n) → Written false (t.drop n) → Written fresh ('[' :: t)
  | char {fresh : Bool} {c : Char} {t : Text} :
    c ≠ '*' → c ≠ '[' → Written (c == '/') t → Written fresh (c :: t)

/-- Whether a component begins behind the character. -/
def beginsBehind (before : Option Char) : Bool := before == none || before == some '/'

theorem beginsBehind_iff {before : Option Char} :
    beginsBehind before = true ↔ before = none ∨ before = some '/' := by
  rw [beginsBehind, Bool.or_eq_true, beq_iff_eq, beq_iff_eq]

theorem head?_ne_of_length_takeWhile {t : Text} (h : (t.takeWhile (· == '*')).length = 0) :
    t.head? ≠ some '*' := by
  cases t with
  | nil => simp
  | cons c t =>
    intro hhead
    rw [List.head?_cons, Option.some.injEq] at hhead
    rw [hhead, List.takeWhile_cons_of_pos rfl] at h
    cases h

theorem exists_cons_of_takeWhile {t : Text} (h : (t.takeWhile (· == '*')).length ≠ 0) :
    ∃ u, t = '*' :: u := by
  cases t with
  | nil => exact absurd rfl h
  | cons c t =>
    by_cases hc : c = '*'
    · exact ⟨t, by rw [hc]⟩
    · rw [List.takeWhile_cons_of_neg (by simpa using hc)] at h
      exact absurd rfl h

/-- What compiles is written by the rules. -/
theorem written_of_compileFrom {position : Nat} {before : Option Char} {tokens : List Token}
    {t : Text} {p : Pattern} (h : compileFrom position before tokens t = .ok p) :
    Written (beginsBehind before) t := by
  fun_induction compileFrom position before tokens t with
  | case1 => exact .nil
  | case2 => cases h
  | case3 position before tokens t more hmore hnone ih =>
    exact .star (head?_ne_of_length_takeWhile hnone) (ih h)
  | case4 position before tokens t more hmore hsome hbefore hend =>
    obtain ⟨u, rfl⟩ := exists_cons_of_takeWhile hsome
    obtain rfl : u = [] := hend
    rw [beginsBehind_iff.mpr hbefore]
    exact .lastStars
  | case5 position before tokens t more hmore hsome hbefore rest hrest ih =>
    obtain ⟨u, rfl⟩ := exists_cons_of_takeWhile hsome
    obtain rfl : u = '/' :: rest := hrest
    rw [beginsBehind_iff.mpr hbefore]
    exact .stars (ih h)
  | case6 => cases h
  | case7 => cases h
  | case8 position before tokens t token n hbracket hne ih => exact .bracket hbracket (ih h)
  | case9 => cases h
  | case10 position before tokens c t hstar hbracket ih => exact .char hstar hbracket (ih h)

/-- What is written by the rules compiles, wherever it stands. -/
theorem Written.exists_compileFrom {fresh : Bool} {t : Text} (h : Written fresh t) :
    ∀ {position : Nat} {before : Option Char} {tokens : List Token},
      beginsBehind before = fresh → ∃ p, compileFrom position before tokens t = .ok p := by
  induction h with
  | nil => exact fun _ => ⟨_, compileFrom_nil⟩
  | star hhead _ ih =>
    intro position before tokens _
    rw [compileFrom_of_star hhead]
    exact ih rfl
  | lastStars => exact fun hbefore => ⟨_, compileFrom_of_lastStars (beginsBehind_iff.mp hbefore)⟩
  | stars _ ih =>
    intro position before tokens hbefore
    rw [compileFrom_of_stars (beginsBehind_iff.mp hbefore)]
    exact ih rfl
  | bracket hbracket _ ih =>
    intro position before tokens _
    rw [compileFrom_of_bracket hbracket]
    exact ih rfl
  | @char _ c _ hstar hbracket _ ih =>
    intro position before tokens _
    rw [compileFrom_of_char hstar hbracket]
    exact ih (by rw [beginsBehind]; simp)

/-- **A text compiles exactly if it is written by the rules.** -/
theorem exists_compile_iff {t : Text} : (∃ p, compile t = .ok p) ↔ Written true t :=
  ⟨fun ⟨_, h⟩ => written_of_compileFrom h, fun h => h.exists_compileFrom rfl⟩

/-! ## Classes -/

/-- The inside of a class is its first character and what stands behind that up to the first closing
bracket. -/
theorem classAhead?_eq_some_iff {t inside rest : Text} :
    classAhead? t = some (inside, rest) ↔
      ∃ c u, inside = c :: u ∧ ']' ∉ u ∧ t = inside ++ ']' :: rest := by
  constructor
  · intro h
    cases t with
    | nil => cases h
    | cons c t =>
      simp only [classAhead?] at h
      split at h
      next hclosed =>
        obtain ⟨u, behind, rfl, hu⟩ := Text.exists_of_length_takeWhile_lt hclosed
        rw [Text.takeWhile_append_cons_of_notMem hu] at h
        obtain ⟨rfl, rfl⟩ := Prod.mk.inj (Option.some.inj h)
        exact ⟨c, u, rfl, hu, by simp⟩
      next => cases h
  · rintro ⟨c, u, rfl, hu, rfl⟩
    simp [classAhead?, Text.takeWhile_append_cons_of_notMem hu]

/-- The text stands in brackets, from behind the opening one up to the closing one, and writes the
class. -/
inductive Closed : Text → Token → Prop
  | within {c : Char} {u : Text} :
    c ≠ '!' → ']' ∉ u → Closed (c :: (u ++ [']'])) (.within (specifiersOf (c :: u)))
  | except {c : Char} {u : Text} :
    ']' ∉ u → Closed ('!' :: c :: (u ++ [']'])) (.except (specifiersOf (c :: u)))

theorem Closed.getLast?_eq {inside : Text} {token : Token} (h : Closed inside token) :
    inside.getLast? = some ']' := by
  cases h with
  | @within c u _ _ => exact @List.getLast?_concat _ (c :: u) ']'
  | @except c u _ => exact @List.getLast?_concat _ ('!' :: c :: u) ']'

/-- A bracket opens a class exactly if a closed one begins behind it. -/
theorem bracketAhead?_eq_some_iff {t : Text} {token : Token} {n : Nat} :
    bracketAhead? t = some (token, n) ↔
      ∃ inside rest, t = inside ++ rest ∧ Closed inside token ∧ n = inside.length := by
  have hplain : ∀ {c : Char} {t : Text}, c ≠ '!' → bracketAhead? (c :: t) =
      (classAhead? (c :: t)).map fun r => (.within (specifiersOf r.1), r.1.length + 1) :=
    fun hc => bracketAhead?.eq_2 _ fun _ hu => hc (List.cons.inj hu).1
  constructor
  · intro h
    cases t with
    | nil => cases h
    | cons d t =>
      by_cases hd : d = '!'
      · subst hd
        obtain ⟨⟨inside, rest⟩, hclass, heq⟩ := Option.map_eq_some_iff.mp h
        obtain ⟨c, u, rfl, hu, rfl⟩ := classAhead?_eq_some_iff.mp hclass
        obtain ⟨rfl, rfl⟩ := Prod.mk.inj heq
        exact ⟨_, rest, by simp, .except hu, by simp⟩
      · rw [hplain hd] at h
        obtain ⟨⟨inside, rest⟩, hclass, heq⟩ := Option.map_eq_some_iff.mp h
        obtain ⟨c, u, rfl, hu, hsplit⟩ := classAhead?_eq_some_iff.mp hclass
        obtain ⟨rfl, rfl⟩ := List.cons.inj hsplit
        obtain ⟨rfl, rfl⟩ := Prod.mk.inj heq
        exact ⟨_, rest, by simp, .within hd hu, by simp⟩
  · rintro ⟨_, rest, rfl, hclosed, rfl⟩
    cases hclosed with
    | @within c u hc hu =>
      have hclass : classAhead? (c :: (u ++ [']']) ++ rest) = some (c :: u, rest) :=
        classAhead?_eq_some_iff.mpr ⟨c, u, rfl, hu, by simp⟩
      rw [List.cons_append] at hclass ⊢
      rw [hplain hc, hclass]
      simp
    | @except c u hu =>
      have hclass : classAhead? (c :: (u ++ [']']) ++ rest) = some (c :: u, rest) :=
        classAhead?_eq_some_iff.mpr ⟨c, u, rfl, hu, by simp⟩
      rw [List.cons_append, bracketAhead?, hclass]
      simp

theorem length_le_of_bracketAhead? {t : Text} {token : Token} {n : Nat}
    (h : bracketAhead? t = some (token, n)) : n ≤ t.length := by
  obtain ⟨inside, rest, rfl, -, rfl⟩ := bracketAhead?_eq_some_iff.mp h
  simp

/-- A bracket that is closed is the same whatever stands behind it. -/
theorem bracketAhead?_append {t : Text} {token : Token} {n : Nat}
    (h : bracketAhead? t = some (token, n)) (s : Text) :
    bracketAhead? (t ++ s) = some (token, n) := by
  obtain ⟨inside, rest, rfl, hclosed, rfl⟩ := bracketAhead?_eq_some_iff.mp h
  exact bracketAhead?_eq_some_iff.mpr ⟨inside, rest ++ s, List.append_assoc .., hclosed, rfl⟩

/-- A bracket that is open is not closed by a text without a closing bracket. -/
theorem bracketAhead?_of_append {t s : Text} {token : Token} {n : Nat} (hs : ']' ∉ s)
    (h : bracketAhead? (t ++ s) = some (token, n)) : bracketAhead? t = some (token, n) := by
  obtain ⟨inside, rest, hsplit, hclosed, rfl⟩ := bracketAhead?_eq_some_iff.mp h
  refine bracketAhead?_eq_some_iff.mpr ?_
  rcases List.append_eq_append_iff.mp hsplit with ⟨v, rfl, rfl⟩ | ⟨v, rfl, -⟩
  · -- What of the class stands behind `t` ends in the closing bracket.
    rcases List.eq_nil_or_concat v with rfl | ⟨v, c, rfl⟩
    · exact ⟨_, [], by simp, hclosed, rfl⟩
    · have hlast := hclosed.getLast?_eq
      rw [List.concat_eq_append, ← List.append_assoc, List.getLast?_concat] at hlast
      obtain rfl := Option.some.inj hlast
      exact absurd (by simp) hs
  · exact ⟨inside, v, rfl, hclosed, rfl⟩

/-! ## Slashes around a pattern -/

namespace Written

variable {fresh : Bool} {t s : Text}

/-- A component may begin in front of a slash, and one begins behind it. -/
theorem slash_cons_iff : Written fresh ('/' :: t) ↔ Written true t := by
  refine ⟨fun h => ?_, fun h => .char (by decide) (by decide) h⟩
  cases h with
  | char _ _ h => exact h

theorem slashes_append (hs : ∀ c ∈ s, c = '/') (h : Written true t) : Written true (s ++ t) := by
  induction s with
  | nil => exact h
  | cons c s ih =>
    obtain rfl := hs c List.mem_cons_self
    exact slash_cons_iff.mpr (ih fun d hd => hs d (List.mem_cons_of_mem _ hd))

/-- Slashes alone are a pattern. -/
theorem of_slashes (hs : ∀ c ∈ s, c = '/') : Written fresh s := by
  cases s with
  | nil => exact .nil
  | cons c s =>
    obtain rfl := hs c List.mem_cons_self
    have h := slashes_append (t := []) (fun d hd => hs d (List.mem_cons_of_mem _ hd)) .nil
    rw [List.append_nil] at h
    exact slash_cons_iff.mpr h

/-- Two patterns with a slash between them are a pattern. -/
theorem append_slash_cons (ht : Written fresh t) (hs : Written true s) :
    Written fresh (t ++ '/' :: s) := by
  induction ht with
  | nil => exact slash_cons_iff.mpr hs
  | @star _ t hhead _ ih =>
    have hahead : (t ++ '/' :: s).head? ≠ some '*' := by
      cases t with
      | nil => simp
      | cons c t => exact hhead
    exact .star hahead ih
  | lastStars => exact .stars hs
  | stars _ ih => exact .stars ih
  | bracket hbracket _ ih =>
    rw [← List.drop_append_of_le_length (length_le_of_bracketAhead? hbracket)] at ih
    exact .bracket (bracketAhead?_append hbracket _) ih
  | char hstar hbracket _ ih => exact .char hstar hbracket ih

/-- A slash that no class can hold is one between two patterns. -/
theorem of_append_slash_cons (hs : ']' ∉ s) (h : Written fresh (t ++ '/' :: s)) :
    Written fresh t ∧ Written true s := by
  -- By the rules of the whole text.  What a rule takes is in `t`, unless it takes the slash itself.
  generalize hwhole : t ++ '/' :: s = whole at h
  induction h generalizing t with
  | nil => simp at hwhole
  | @star _ u hhead _ ih =>
    cases t with
    | nil => cases hwhole
    | cons c t =>
      obtain ⟨rfl, rfl⟩ := List.cons.inj hwhole
      obtain ⟨ht, hs⟩ := ih rfl
      refine ⟨.star (fun hstar => hhead ?_) ht, hs⟩
      obtain ⟨v, rfl⟩ := List.head?_eq_some_iff.mp hstar
      rfl
  | lastStars =>
    have hslash : '/' ∈ ['*', '*'] := by
      rw [← hwhole]
      exact List.mem_append_right t List.mem_cons_self
    simp at hslash
  | @stars u hu ih =>
    rcases t with _ | ⟨a, _ | ⟨b, _ | ⟨c, t⟩⟩⟩
    · cases hwhole
    · cases hwhole
    · cases hwhole
      exact ⟨.lastStars, hu⟩
    · cases hwhole
      exact (ih rfl).imp_left .stars
  | @bracket _ u token n hbracket _ ih =>
    cases t with
    | nil => cases hwhole
    | cons c t =>
      obtain ⟨rfl, rfl⟩ := List.cons.inj hwhole
      -- Nothing from the slash on could close the class, so it is closed in `t`.
      have hclosed := bracketAhead?_of_append (by simpa using hs) hbracket
      have hlength := length_le_of_bracketAhead? hclosed
      exact (ih (List.drop_append_of_le_length hlength).symm).imp_left (.bracket hclosed)
  | @char _ c u hstar hbracket hu ih =>
    cases t with
    | nil =>
      obtain ⟨rfl, rfl⟩ := List.cons.inj hwhole
      exact ⟨.nil, hu⟩
    | cons d t =>
      obtain ⟨rfl, rfl⟩ := List.cons.inj hwhole
      exact (ih rfl).imp_left (.char hstar hbracket)

theorem append_slashes (h : Written fresh t) (hs : ∀ c ∈ s, c = '/') : Written fresh (t ++ s) := by
  cases s with
  | nil => rwa [List.append_nil]
  | cons c s =>
    obtain ⟨rfl, htail⟩ := List.forall_mem_cons.mp hs
    exact h.append_slash_cons (of_slashes htail)

/-- Slashes behind a pattern are not part of it. -/
theorem of_append_slashes (hs : ∀ c ∈ s, c = '/') (h : Written fresh (t ++ s)) :
    Written fresh t := by
  cases s with
  | nil => rwa [List.append_nil] at h
  | cons c s =>
    obtain ⟨rfl, htail⟩ := List.forall_mem_cons.mp hs
    exact (of_append_slash_cons (fun hclose => absurd (htail _ hclose) (by decide)) h).1

/-- **What may begin a component may stand anywhere, except for two stars.** -/
theorem not_fresh_iff (h : Written true t) : Written false t ↔ ¬ ['*', '*'] <+: t := by
  constructor
  · rintro hinside ⟨u, rfl⟩
    cases hinside with
    | star hhead _ => exact hhead rfl
    | char hstar _ _ => exact hstar rfl
  · intro hstars
    cases h with
    | nil => exact .nil
    | star hhead h => exact .star hhead h
    | lastStars => exact absurd List.prefix_rfl hstars
    | stars _ => exact absurd ⟨_, rfl⟩ hstars
    | bracket hbracket h => exact .bracket hbracket h
    | char hstar hbracket h => exact .char hstar hbracket h

end Written
end StyleAudit.Glob
