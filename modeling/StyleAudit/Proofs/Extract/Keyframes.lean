import StyleAudit.Proofs.Extract.FontBlocks
import StyleAudit.Proofs.Extract.TopLevel

/-!
# Animations, read off the rules at the top level

`animations` goes through the rules at the top level twice.  The first time it files the insides of
the definitions under the names of the animations, a later one in the place of an earlier one, and
inside a definition a later step in the place of an earlier one with the same selector.  The second
time it looks for uses, and there nothing is replaced: a rule is listed once for each of its
declarations that names the animation.

A definition and a use meet in the name, and both lose the quotes around it.  A definition has it
behind the keyword (`trim_condition_of_mem_parseStylesheet`: nothing is left to trim there), a use
in the first word of the value (`FirstWord`).  The keywords and the properties in question are the
plain ones and those with a vendor's mark (`vendorForms`).

* `animations_eq_walk` --- when there is an answer, and what it holds.
-/

namespace StyleAudit.Extract

open Css

/-! ## Names -/

/-- The marks that vendors put in front of names, and no mark. -/
def vendorMarks : List Text := ["", "-webkit-", "-moz-", "-ms-", "-o-"].map String.toList

/-- The names with each of the marks. -/
def vendorForms (names : List Text) : List Text :=
  vendorMarks.flatMap fun mark => names.map (mark ++ ·)

theorem keyframesKeywords_eq : keyframesKeywords = vendorForms ["keyframes".toList] := by decide

theorem animationProperties_eq :
    animationProperties = vendorForms ["animation".toList, "animation-name".toList] := by decide

/-- Behind blanks, the text begins with the word.  It goes up to the next blank. -/
inductive FirstWord : Text → Text → Prop
  | intro {blanks word rest : Text} (hblanks : ∀ c ∈ blanks, isBlank c = true) (hne : word ≠ [])
      (hword : ∀ c ∈ word, isBlank c = false) (hrest : ∀ c ∈ rest.head?, isBlank c = true) :
      FirstWord (blanks ++ (word ++ rest)) word

theorem firstWord?_eq_some_iff {t word : Text} :
    Text.firstWord? t = some word ↔ FirstWord t word := by
  constructor
  · intro h
    have hsplit := List.takeWhile_append_dropWhile (p := isBlank) (l := t)
    have hfirst := List.head?_dropWhile_not isBlank t
    unfold Text.firstWord? at h
    cases hbehind : t.dropWhile isBlank with
    | nil =>
      rw [hbehind] at h
      cases h
    | cons c r =>
      rw [hbehind] at h hsplit hfirst
      have hword : (c :: r).takeWhile (fun x => !isBlank x) = word := Option.some.inj h
      have hrest := List.head?_dropWhile_not (fun x => !isBlank x) (c :: r)
      rw [← hsplit, ← List.takeWhile_append_dropWhile (p := fun x => !isBlank x) (l := c :: r),
        hword]
      refine .intro (fun x hx => List.mem_takeWhile_imp hx) ?_ (fun x hx => ?_) fun x hx => ?_
      · rw [← hword, List.takeWhile_cons_of_pos (by simpa using hfirst)]
        exact List.cons_ne_nil _ _
      · rw [← hword] at hx
        simpa using List.mem_takeWhile_imp hx
      · rw [Option.mem_def.mp hx] at hrest
        simpa using hrest
  · rintro (@⟨blanks, word, rest, hblanks, hne, hword, hrest⟩)
    obtain ⟨c, r, rfl⟩ := List.exists_cons_of_ne_nil hne
    have hc : ¬ isBlank c = true := Bool.eq_false_iff.mp (hword c List.mem_cons_self)
    have htake : ((c :: r) ++ rest).takeWhile (fun x => !isBlank x) = c :: r := by
      rw [Text.takeWhile_append_of_head? fun x hx => by rw [hrest x hx]; rfl]
      exact List.takeWhile_eq_self_iff.mpr fun x hx => by rw [hword x hx]; rfl
    rw [Text.firstWord?, List.dropWhile_append_of_pos hblanks, List.cons_append,
      List.dropWhile_cons_of_neg hc]
    exact congrArg some htake

/-- The declaration names the animation: its property is one of those that do, and the first word of
its value is the name, in quotes or not. -/
def Uses (d : Declaration) (name : Text) : Prop :=
  (∃ property ∈ vendorForms ["animation".toList, "animation-name".toList],
    d.isNamed property = true) ∧
  ∃ word, FirstWord d.value word ∧ unquote word = name

theorem animationNamed?_eq_some_iff {d : Declaration} {name : Text} :
    animationNamed? d = some name ↔ Uses d name := by
  unfold animationNamed? Uses
  rw [animationProperties_eq, ← List.any_eq_true]
  split
  next h => simp only [h, true_and, Option.map_eq_some_iff, firstWord?_eq_some_iff]
  next h => simp only [h, false_and, reduceCtorEq]

instance (d : Declaration) (name : Text) : Decidable (Uses d name) :=
  decidable_of_iff _ animationNamed?_eq_some_iff

/-- The condition of an at-rule of a stylesheet is trimmed. -/
theorem trim_condition_atRuleAhead (keyword : Text) (line : Nat) (ls : List Lexeme) :
    (atRuleAhead keyword line ls).1.condition.trim = (atRuleAhead keyword line ls).1.condition := by
  simp only [atRuleAhead]
  split
  · exact Text.trim_trim _
  · split <;> exact Text.trim_trim _

theorem trim_condition_of_mem_parseStylesheet {t : Text} {rule : AtRule}
    (h : Rule.atRule rule ∈ parseStylesheet t) : rule.condition.trim = rule.condition := by
  rw [parseStylesheet, rulesFrom_eq_map] at h
  obtain ⟨s, hs, hrule⟩ := List.mem_map.mp h
  obtain ⟨l, ls, rfl⟩ := List.exists_cons_of_ne_nil (ruleStarts_suffix hs).1
  rcases cases_of_ruleAt (endPlace t) l ls with ⟨keyword, hat, -⟩ | ⟨hat, -⟩
  · cases hat.symm.trans hrule
    exact trim_condition_atRuleAhead _ _ _
  · cases hresult : (qualifiedAhead false (endPlace t) (l :: ls)).1 with
    | ok rule' => rw [hresult] at hat; cases hat.symm.trans hrule
    | error issue => rw [hresult] at hat; cases hat.symm.trans hrule

/-! ## Definitions -/

/-- The definitions of animations in a list, in order. -/
def keyframesAtRules (rules : List Rule) : List AtRule :=
  atRules (fun r => (vendorForms ["keyframes".toList]).any r.isNamed) rules

/-- The steps have for each selector the last rule with it, and that with the last value of each
property. -/
def Lists (frames : Keyframes) (rules : List QualifiedRule) : Prop :=
  ∀ s, Option.Rel Holds frames[s]? (rules.filter (·.selector == s)).getLast?

theorem lists_keyframesOf (rules : List Rule) :
    Lists (keyframesOf rules) (qualifiedRules rules) := by
  intro s
  have hfold : keyframesOf rules = (qualifiedRules rules).foldl
      (fun frames r => frames.insert r.selector (valuesByName r.declarations)) ∅ := by
    rw [qualifiedRules, List.foldl_filterMap, keyframesOf]
    congr
    funext frames rule
    cases rule <;> rfl
  have hget := getElem?_foldl_insert QualifiedRule.selector
    (fun r => valuesByName r.declarations) (fun _ => true) s (qualifiedRules rules) ∅
  simp only [if_true, Bool.true_and, Std.TreeMap.getElem?_emptyc, Option.or_none] at hget
  rw [hfold, hget]
  cases ((qualifiedRules rules).filter (·.selector == s)).getLast? with
  | none => exact .none
  | some r => exact .some (holds_valuesByName r)

/-- Files the steps of a definition. -/
def fileDefinition (found : Table Keyframes) (r : AtRule) (inner : List Rule) : Table Keyframes :=
  found.insert (unquote (Text.trim r.condition)) (keyframesOf inner)

/-- What is filed under a name. -/
theorem getElem?_foldl_fileDefinition {l : List AtRule}
    (htrimmed : ∀ r ∈ l, r.condition.trim = r.condition) (name : Text) :
    (l.foldl (fun found r => fileDefinition found r r.rules) ∅)[name]? =
      (l.filter (unquote ·.condition == name)).getLast?.map fun r => keyframesOf r.rules := by
  have hget := getElem?_foldl_insert (fun r : AtRule => unquote (Text.trim r.condition))
    (fun r => keyframesOf r.rules) (fun _ => true) name l ∅
  simp only [if_true, Bool.true_and, Std.TreeMap.getElem?_emptyc, Option.or_none] at hget
  simp only [fileDefinition, hget]
  congr 2
  exact List.filter_congr fun r hr => by rw [htrimmed r hr]

/-! ## Uses -/

/-- The declarations of the qualified rules of a list with their selectors, in order. -/
def topDeclarations (rules : List Rule) : List Located :=
  (qualifiedRules rules).flatMap fun r => r.declarations.map (r.selector, ·)

/-- The selectors of the declarations that name the animation, in order and with repetitions. -/
def users (name : Text) (rules : List Rule) : List Text :=
  ((topDeclarations rules).filter fun p => Uses p.2 name).map Prod.fst

theorem filterMap_animationNamed? (name selector : Text) (ds : List Declaration) :
    ds.filterMap (fun d => if animationNamed? d = some name then some selector else none) =
      ((ds.map (selector, ·)).filter fun p => Uses p.2 name).map Prod.fst := by
  simp only [animationNamed?_eq_some_iff]
  induction ds with
  | nil => rfl
  | cons d ds ih =>
    by_cases hd : Uses d name
    · simp [hd, ih]
    · simp [hd, ih]

theorem usersOf_eq_users (name : Text) (rules : List Rule) :
    usersOf name rules = users name rules := by
  induction rules with
  | nil => rfl
  | cons rule rules ih =>
    rw [usersOf, List.flatMap_cons, ← usersOf, ih]
    cases rule with
    | atRule r => rfl
    | error issue => rfl
    | qualified r =>
      simp only [filterMap_animationNamed?]
      rw [users, users, topDeclarations, topDeclarations, ← List.map_append, ← List.filter_append]
      rfl

/-! ## The animations of a stylesheet -/

/-- The entry says of the animation what the definition and the rules say: the steps of the
definition, and who uses the animation. -/
structure Animation.Describes (a : Animation) (name : Text) (rules : List Rule) (r : AtRule) :
    Prop where
  keyframes : Lists a.keyframes (qualifiedRules r.rules)
  usedBy : a.usedBy = users name rules

/-- What the question about animations comes to for a stylesheet that is not refused. -/
theorem animations_eq {t : Text} {rules : List Rule} (h : loadSheet t = .ok rules) :
    animations (Utf8.encode t) =
      ((keyframesAtRules rules).findSome? fun r => Rule.firstIssue? r.rules).elim
        (.ok (((keyframesAtRules rules).foldl (fun found r => fileDefinition found r r.rules) ∅).map
          fun name frames => ⟨frames, users name rules⟩))
        (.error ∘ insideFailure "@keyframes" "in @keyframes") := by
  have hrun : rules.foldlM addDefinition ∅ =
      ((keyframesAtRules rules).findSome? fun r => Rule.firstIssue? r.rules).elim
        (.ok ((keyframesAtRules rules).foldl (fun found r => fileDefinition found r r.rules) ∅))
        (.error ∘ insideFailure "@keyframes" "in @keyframes") := by
    rw [← foldlM_innerRules fileDefinition, keyframesAtRules, ← keyframesKeywords_eq]
    refine foldlM_atRules (fun found r => rfl) (fun found rule hrule => ?_) rules ∅
    cases rule with
    | atRule r => exact absurd rfl (hrule r)
    | qualified r => rfl
    | error issue => rfl
  rw [animations, readSheet_encode, h]
  show (rules.foldlM addDefinition ∅ >>= fun definitions => Except.ok
    (definitions.map fun name frames => Animation.mk frames (usersOf name rules))) = _
  simp only [hrun, usersOf_eq_users]
  cases (keyframesAtRules rules).findSome? fun r => Rule.firstIssue? r.rules <;> rfl

/-- **The animations of a stylesheet, read off its rules.**  The question fails exactly if one of
the definitions at the top level has a rule directly inside it that cannot be read, and then with
the first of these.  Otherwise the animations are those that are defined.  Each has the steps of the
last definition with its name, for each selector the last one, and it is listed who uses it: the
selectors of the rules at the top level, in the order of the text, once for each declaration that
names the animation. -/
theorem animations_eq_walk {t : Text} {rules : List Rule} (h : loadSheet t = .ok rules) :
    FailsInside (animations (Utf8.encode t)) "@keyframes" "in @keyframes"
        (keyframesAtRules rules) ∧
      ∀ table, animations (Utf8.encode t) = .ok table → ∀ name,
        (name ∈ table ↔ ∃ r ∈ keyframesAtRules rules, unquote r.condition = name) ∧
        Option.Rel (fun a r => Animation.Describes a name rules r) table[name]?
          ((keyframesAtRules rules).filter (unquote ·.condition == name)).getLast? := by
  have hrun := animations_eq h
  refine ⟨failsInside_of_eq hrun, fun table htable name => ?_⟩
  have htrimmed : ∀ r ∈ keyframesAtRules rules, r.condition.trim = r.condition := by
    intro r hr
    obtain ⟨rule, hrule, hselected⟩ := List.mem_filterMap.mp hr
    obtain ⟨-, -, rfl⟩ := loadSheet_eq_ok_iff.mp h
    cases rule with
    | qualified q => cases hselected
    | error issue => cases hselected
    | atRule r' =>
      rw [atRule?] at hselected
      split at hselected
      · cases hselected
        exact trim_condition_of_mem_parseStylesheet hrule
      · cases hselected
  have hkey : (∃ r ∈ keyframesAtRules rules, unquote r.condition = name) ↔
      ((keyframesAtRules rules).filter (unquote ·.condition == name)).getLast?.isSome = true := by
    simp
  rw [hkey, Std.TreeMap.mem_iff_isSome_getElem?, ← result_eq_of_eq hrun htable,
    Std.TreeMap.getElem?_map, getElem?_foldl_fileDefinition htrimmed name]
  cases ((keyframesAtRules rules).filter (unquote ·.condition == name)).getLast? with
  | none => exact ⟨Iff.rfl, .none⟩
  | some r => exact ⟨Iff.rfl, .some ⟨lists_keyframesOf r.rules, rfl⟩⟩

/-- An animation that is defined twice, the second time with a vendor's mark and in capitals, used
three times by two rules; and the use of an animation that is not defined. -/
def twiceDefined : Text :=
  "@keyframes \"a\"\x7bfrom\x7bleft:0\x7dby\x7btop:1\x7d\x7d.x\x7banimation:'a' 1s;".toList ++
    "ANIMATION-NAME:a\x7d@-Moz-KEYFRAMES a\x7bto\x7btop:1\x7dto\x7bleft:2;left:3\x7d\x7d".toList ++
    ".y\x7banimation:b\x7d.z\x7b-o-animation:  a\x7d".toList

/-- The second definition counts, in it the second step and of that the second value; the uses are
listed with repetitions, and what is not defined is no animation. -/
theorem animations_eq_walk_twiceDefined :
    (∃ rules, loadSheet twiceDefined = .ok rules) ∧
      ∃ table, animations (Utf8.encode twiceDefined) = .ok table ∧ ['b'] ∉ table ∧
        ∃ a, table[['a']]? = some a ∧ a.usedBy = [".x".toList, ".x".toList, ".z".toList] ∧
          "from".toList ∉ a.keyframes ∧ ∃ values, a.keyframes["to".toList]? = some values ∧
            values["left".toList]? = some ['3'] ∧ values["top".toList]? = none := by
  let first : AtRule := ⟨"keyframes".toList, "\"a\"".toList,
    some "from\x7bleft:0\x7dby\x7btop:1\x7d".toList, 1⟩
  let second : AtRule := ⟨"-Moz-KEYFRAMES".toList, ['a'],
    some "to\x7btop:1\x7dto\x7bleft:2;left:3\x7d".toList, 1⟩
  let rules : List Rule := [.atRule first,
    .qualified ⟨".x".toList, "animation:'a' 1s;ANIMATION-NAME:a".toList, 1, 1⟩, .atRule second,
    .qualified ⟨".y".toList, "animation:b".toList, 1, 1⟩,
    .qualified ⟨".z".toList, "-o-animation:  a".toList, 1, 1⟩]
  let step : QualifiedRule := ⟨"to".toList, "left:2;left:3".toList, 1, 1⟩
  have hrules : parseStylesheet twiceDefined = rules := by decide +kernel
  have hload : loadSheet twiceDefined = .ok rules :=
    loadSheet_eq_ok_iff.mpr ⟨by decide, by rw [hrules]; rfl, hrules⟩
  have hdefined : keyframesAtRules rules = [first, second] := by decide +kernel
  have hfirst : Rule.firstIssue? first.rules = none := by decide +kernel
  have hframes : qualifiedRules second.rules =
      [⟨"to".toList, "top:1".toList, 1, 1⟩, step] := by decide +kernel
  have hsecond : Rule.firstIssue? second.rules = none := by decide +kernel
  obtain ⟨hfails, hwalk⟩ := animations_eq_walk hload
  rw [hdefined] at hfails hwalk
  obtain ⟨table, htable⟩ := hfails.ok_iff.mpr (by
    simp only [List.forall_mem_cons, ← firstIssue?_eq_none_iff]
    exact ⟨hfirst, hsecond, nofun⟩)
  have hlast : ([first, second].filter (unquote ·.condition == ['a'])).getLast? = some second := by
    decide +kernel
  have hdescribes := (hwalk table htable ['a']).2
  rw [hlast] at hdescribes
  obtain ⟨a, ha, hlists, husers⟩ := exists_of_rel_some hdescribes
  have hto := hlists "to".toList
  have hfrom := hlists "from".toList
  rw [hframes] at hto hfrom
  obtain ⟨values, hvalues, hholds⟩ := exists_of_rel_some hto
  refine ⟨⟨rules, hload⟩, table, htable, ?_, a, ha, ?_, ?_, values, hvalues, ?_, ?_⟩
  · rw [(hwalk table htable ['b']).1]
    decide +kernel
  · rw [husers]
    decide +kernel
  · rw [Std.TreeMap.mem_iff_isSome_getElem?]
    generalize a.keyframes["from".toList]? = frame at hfrom
    cases hfrom
    exact Bool.false_ne_true
  · rw [hholds]
    decide +kernel
  · rw [hholds]
    decide +kernel

end StyleAudit.Extract
