import StyleAudit.Proofs.Extract.Refusal

/-!
# One walk behind two questions

`colors` and `property` go through a stylesheet with accumulators of their own, one adding
to an entry and one replacing it.  Both visit the same declarations in the same order, and
that order is written down here once: `walk` lists the declarations of a stylesheet with the
selectors of their rules, in source order, entering the block of every at-rule as a
stylesheet of its own.  What cannot be read contributes nothing.

Each question is then a loop over the walk (`collect_eq_foldl`), and a loop that files
entries in a table can be read off at one key: filing behind what is there leaves the list of
the filed entries (`getElem?_foldl_append`), and replacing leaves the last one
(`getElem?_foldl_insert`).

* `colors_and_property_eq_walk` --- both answers, read off the walk.
-/

namespace StyleAudit.Extract

open Css

/-! ## The walk -/

/-- A declaration with the selector of the rule that it stands in. -/
abbrev Located := Text × Declaration

/-- The declarations of a list of rules with their selectors, in source order. -/
def walkRules : List Rule → List Located
  | [] => []
  | .qualified rule :: rules => rule.declarations.map (rule.selector, ·) ++ walkRules rules
  | .atRule rule :: rules => walkRules rule.rules ++ walkRules rules
  | .error _ :: rules => walkRules rules
termination_by rules => ruleWeight rules
decreasing_by
  all_goals simp only [ruleWeight_cons]
  · have := (Rule.qualified rule).weight_pos; omega
  · have := rule.weight_rules_lt; omega
  · have := (Rule.atRule rule).weight_pos; omega
  · simp only [Rule.weight]; omega

/-- The declarations of a stylesheet with their selectors, in source order. -/
def walk (t : Text) : List Located := walkRules (parseStylesheet t)

/-- What one rule contributes to the walk. -/
def located : Rule → List Located
  | .qualified rule => rule.declarations.map (rule.selector, ·)
  | .atRule rule => (rule.body.map walk).getD []
  | .error _ => []

/-- The walk over an at-rule's block is the walk over the stylesheet that the block is. -/
theorem walkRules_rules (rule : AtRule) :
    walkRules rule.rules = (rule.body.map walk).getD [] := by
  unfold AtRule.rules
  cases rule.body with
  | none => rw [walkRules]; rfl
  | some body => rfl

/-- **The walk, rule by rule.** -/
theorem walk_eq_flatMap (t : Text) : walk t = (parseStylesheet t).flatMap located := by
  rw [walk]
  induction parseStylesheet t with
  | nil => rw [walkRules, List.flatMap_nil]
  | cons rule rules ih =>
    rw [List.flatMap_cons, ← ih]
    cases rule with
    | qualified rule => rw [walkRules, located]
    | atRule rule => rw [walkRules, walkRules_rules, located]
    | error issue => rw [walkRules, located, List.nil_append]

/-- **A collector that handles rules one by one is a loop over the walk.**  It may do
anything with a declaration, as long as it does it for one after the other. -/
theorem collect_eq_foldl {σ : Type} {collect : σ → List Rule → σ} {step : σ → Located → σ}
    (hnil : ∀ s, collect s [] = s)
    (hqualified : ∀ s rule rules, collect s (.qualified rule :: rules) =
      collect (rule.declarations.foldl (fun s d => step s (rule.selector, d)) s) rules)
    (hatRule : ∀ s rule rules,
      collect s (.atRule rule :: rules) = collect (collect s rule.rules) rules)
    (herror : ∀ s issue rules, collect s (.error issue :: rules) = collect s rules)
    (s : σ) (rules : List Rule) : collect s rules = (walkRules rules).foldl step s := by
  fun_induction walkRules rules generalizing s with
  | case1 => rw [hnil, List.foldl_nil]
  | case2 rule rules ih => rw [hqualified, ih, List.foldl_append, List.foldl_map]
  | case3 rule rules ihInner ihRest =>
    rw [hatRule, ihRest, ihInner, List.foldl_append]
  | case4 issue rules ih => rw [herror, ih]

/-! ## Filing in a table -/

section Filing

variable {α β : Type} (key : α → Text) (entry : α → β) (counts : α → Bool)

theorem getElem?_append (table : Table (List β)) (k s : Text) (entries : List β) :
    (table.append k entries)[s]? =
      if k = s then some (table.getD s [] ++ entries) else table[s]? := by
  rw [Table.append, Std.TreeMap.getElem?_alter]
  by_cases hkey : k = s
  · rw [if_pos (Std.LawfulEqCmp.compare_eq_iff_eq.mpr hkey), if_pos hkey,
      Std.TreeMap.getD_eq_getD_getElem?, hkey]
  · rw [if_neg (fun h => hkey (Std.LawfulEqCmp.compare_eq_iff_eq.mp h)), if_neg hkey]

/-- **Filing behind what is there, read off at one key**: what was there, and behind it the entries
of the items that count and have that key.  An item that counts and has no entries still makes one
for its key. -/
theorem getElem?_foldl_appendAll (entries : α → List β) (s : Text) (l : List α)
    (table : Table (List β)) :
    (l.foldl (fun table a =>
        if counts a then table.append (key a) (entries a) else table) table)[s]? =
      match l.filter fun a => counts a && key a == s with
      | [] => table[s]?
      | hits => some (table.getD s [] ++ hits.flatMap entries) := by
  induction l generalizing table with
  | nil => rfl
  | cons a l ih =>
    rw [List.foldl_cons, ih, List.filter_cons]
    by_cases hc : counts a = true
    · by_cases hk : key a = s
      · rw [if_pos hc, if_pos (by simp [hc, hk]), getElem?_append, if_pos hk, Table.getD_append,
          if_pos hk]
        cases l.filter fun a => counts a && key a == s with
        | nil => simp
        | cons b hits => simp [List.append_assoc]
      · rw [if_pos hc, if_neg (by simp [hk]), getElem?_append, if_neg hk, Table.getD_append,
          if_neg hk]
    · rw [if_neg hc, if_neg (by simp [hc])]

/-- Files the entries of an item behind what is there, unless it has none. -/
def fileUnder (entries : α → List β) (table : Table (List β)) (a : α) : Table (List β) :=
  if (entries a).isEmpty then table else table.append (key a) (entries a)

/-- Items without entries leave nothing, not even their key. -/
theorem getElem?_foldl_fileUnder (entries : α → List β) (s : Text) (l : List α)
    (table : Table (List β)) :
    (l.foldl (fileUnder key entries) table)[s]? =
      if (l.filter (key · == s)).flatMap entries = [] then table[s]?
      else some (table.getD s [] ++ (l.filter (key · == s)).flatMap entries) := by
  have hstep : fileUnder key entries = fun table a =>
      if !(entries a).isEmpty then table.append (key a) (entries a) else table := by
    funext table a
    cases h : (entries a).isEmpty <;> simp [fileUnder, h]
  have hhits : (l.filter (key · == s)).flatMap entries =
      (l.filter fun a => !(entries a).isEmpty && key a == s).flatMap entries := by
    rw [← List.filter_filter]
    generalize l.filter (key · == s) = l
    induction l with
    | nil => rfl
    | cons a l ih =>
      rw [List.flatMap_cons, ih, List.filter_cons]
      cases h : entries a <;> simp [h]
  rw [hstep, getElem?_foldl_appendAll key (fun a => !(entries a).isEmpty), hhits]
  cases hfilter : l.filter fun a => !(entries a).isEmpty && key a == s with
  | nil => rfl
  | cons a hits =>
    have ha : a ∈ l.filter fun a => !(entries a).isEmpty && key a == s :=
      hfilter ▸ List.mem_cons_self
    have hne : (a :: hits).flatMap entries ≠ [] := by
      rw [List.mem_filter, Bool.and_eq_true, Bool.not_eq_true', List.isEmpty_eq_false_iff] at ha
      rw [List.flatMap_cons]
      exact List.append_ne_nil_of_left_ne_nil ha.2.1 _
    rw [if_neg hne]

/-- Filing one entry for each item that counts. -/
theorem getElem?_foldl_append (s : Text) (l : List α) (table : Table (List β)) :
    (l.foldl (fun table a =>
        if counts a then table.append (key a) [entry a] else table) table)[s]? =
      match l.filter fun a => counts a && key a == s with
      | [] => table[s]?
      | hits => some (table.getD s [] ++ hits.map entry) := by
  rw [getElem?_foldl_appendAll key counts fun a => [entry a]]
  simp only [List.map_eq_flatMap]

/-- Filing in the place of what is there, read off at one key. -/
theorem getElem?_foldl_insert (s : Text) (l : List α) (table : Table β) :
    (l.foldl (fun table a =>
        if counts a then table.insert (key a) (entry a) else table) table)[s]? =
      ((l.filter fun a => counts a && key a == s).getLast?.map entry).or table[s]? := by
  induction l generalizing table with
  | nil => rfl
  | cons a l ih =>
    rw [List.foldl_cons, ih, List.filter_cons]
    by_cases hc : counts a = true
    · by_cases hk : key a = s
      · rw [if_pos hc, if_pos (by simp [hc, hk]), List.getLast?_cons,
          Std.TreeMap.getElem?_insert, if_pos (by simp [hk])]
        cases (l.filter fun a => counts a && key a == s).getLast? <;> rfl
      · rw [if_pos hc, if_neg (by simp [hk]), Std.TreeMap.getElem?_insert,
          if_neg (by simp [hk])]
    · rw [if_neg hc, if_neg (by simp [hc])]

end Filing

/-! ## The two questions -/

/-- Whether the declaration bears a colour. -/
def Located.bearsColor (p : Located) : Bool := Css.bearsColor p.2.name p.2.value

/-- A declaration as the answer about colours writes it. -/
def Located.line (p : Located) : Text := p.2.name ++ ": ".toList ++ p.2.value

theorem collectColors_eq_foldl (found : Table (List Text)) (rules : List Rule) :
    collectColors found rules = (walkRules rules).foldl (fun table p =>
      if p.bearsColor then table.append p.1 [p.line] else table) found :=
  collect_eq_foldl (fun s => by rw [collectColors])
    (fun s rule rules => by rw [collectColors]; rfl)
    (fun s rule rules => by rw [collectColors])
    (fun s issue rules => by rw [collectColors]) found rules

theorem collectProperty_eq_foldl (name : Text) (found : Table Text) (rules : List Rule) :
    collectProperty name found rules = (walkRules rules).foldl (fun table p =>
      if p.2.isNamed name then table.insert p.1 (markedValue p.2) else table) found :=
  collect_eq_foldl (fun s => by rw [collectProperty])
    (fun s rule rules => by rw [collectProperty]; rfl)
    (fun s rule rules => by rw [collectProperty])
    (fun s issue rules => by rw [collectProperty]) found rules

/-- A key is in a table that was filled by a loop when an entry for it was filed. -/
theorem exists_iff_filter_ne_nil {counts : Located → Bool} {l : List Located} {s : Text} :
    (∃ p ∈ l, p.1 = s ∧ counts p = true) ↔ (l.filter fun p => counts p && p.1 == s) ≠ [] := by
  rw [Ne, List.filter_eq_nil_iff]
  constructor
  · rintro ⟨p, hp, rfl, hc⟩ h
    exact h p hp (by simp [hc])
  · intro h
    obtain ⟨p, hp, hp'⟩ := Classical.not_forall.mp h |>.imp fun p hp => Classical.not_imp.mp hp
    rw [Classical.not_not, Bool.and_eq_true, beq_iff_eq] at hp'
    exact ⟨p, hp, hp'.2, hp'.1⟩

/-- The colours at one selector are the lines of its declarations that bear a colour. -/
theorem getElem?_collectColors (rules : List Rule) (s : Text) :
    (collectColors ∅ rules)[s]? =
      match (walkRules rules).filter fun p => p.bearsColor && p.1 == s with
      | [] => none
      | hits => some (hits.map Located.line) := by
  rw [collectColors_eq_foldl,
    getElem?_foldl_append Prod.fst Located.line Located.bearsColor s (walkRules rules) ∅]
  cases (walkRules rules).filter fun p => p.bearsColor && p.1 == s with
  | nil => exact Std.TreeMap.getElem?_emptyc
  | cons p ps => rfl

/-- The value at one selector is that of its last declaration of the property. -/
theorem getElem?_collectProperty (name : Text) (rules : List Rule) (s : Text) :
    (collectProperty name ∅ rules)[s]? =
      ((walkRules rules).filter fun p => p.2.isNamed name && p.1 == s).getLast?.map
        fun p => markedValue p.2 := by
  rw [collectProperty_eq_foldl, getElem?_foldl_insert Prod.fst (fun p => markedValue p.2)
    (fun p => p.2.isNamed name) s (walkRules rules) ∅, Std.TreeMap.getElem?_emptyc, Option.or_none]

/-- **Both answers, read off the walk.**  The colours of a stylesheet are filed under the
selectors that have a declaration with a colour in the walk, and under each stand all of
these, in the order of the walk.  The values of a property are filed under the selectors
that have a declaration of it in the walk, and under each stands the last of these, with the
mark if it has one. -/
theorem colors_and_property_eq_walk {t : Text} {rules : List Rule}
    (h : loadSheet t = .ok rules) (name : Text) :
    (∃ table, colors (Utf8.encode t) = .ok table ∧ ∀ s,
      (s ∈ table ↔ ∃ p ∈ walk t, p.1 = s ∧ p.bearsColor = true) ∧
      table.getD s [] = ((walk t).filter fun p => p.bearsColor && p.1 == s).map Located.line) ∧
    ∃ table, property (Utf8.encode t) name = .ok table ∧ ∀ s,
      (s ∈ table ↔ ∃ p ∈ walk t, p.1 = s ∧ p.2.isNamed name = true) ∧
      table[s]? = ((walk t).filter fun p => p.2.isNamed name && p.1 == s).getLast?.map fun p =>
        if p.2.important then p.2.value ++ " !important".toList else p.2.value := by
  obtain ⟨-, -, rfl⟩ := loadSheet_eq_ok_iff.mp h
  have hread : readSheet (Utf8.encode t) = .ok (parseStylesheet t) :=
    (readSheet_encode t).trans h
  refine ⟨⟨collectColors ∅ (parseStylesheet t), by rw [colors, hread]; rfl, fun s => ?_⟩,
    collectProperty name ∅ (parseStylesheet t), by rw [property, hread]; rfl, fun s => ?_⟩
  · have hget := getElem?_collectColors (parseStylesheet t) s
    rw [exists_iff_filter_ne_nil, Std.TreeMap.mem_iff_isSome_getElem?,
      Std.TreeMap.getD_eq_getD_getElem?, hget, walk]
    cases (walkRules (parseStylesheet t)).filter fun p => p.bearsColor && p.1 == s with
    | nil => exact ⟨by simp, rfl⟩
    | cons p ps => exact ⟨by simp, rfl⟩
  · have hget := getElem?_collectProperty name (parseStylesheet t) s
    rw [exists_iff_filter_ne_nil, Std.TreeMap.mem_iff_isSome_getElem?, hget, walk]
    refine ⟨?_, rfl⟩
    rw [Option.isSome_map, List.getLast?_isSome]

/-- A stylesheet that gives the colour of one class twice, the first time inside a block. -/
def twiceColored : Text :=
  "@media print \x7b .a \x7b color: red; color: blue \x7d \x7d\n".toList ++
    ".a \x7b COLOR: #fff !important \x7d".toList

/-- All three colours of `twiceColored` are listed, and the last one is the value. -/
theorem colors_and_property_eq_walk_twiceColored :
    loadSheet twiceColored = .ok (parseStylesheet twiceColored) ∧
      (∃ table, colors (Utf8.encode twiceColored) = .ok table ∧
        table.getD ".a".toList [] =
          ["color: red".toList, "color: blue".toList, "COLOR: #fff".toList]) ∧
      ∃ table, property (Utf8.encode twiceColored) "color".toList = .ok table ∧
        table[".a".toList]? = some "#fff !important".toList := by
  have hload : loadSheet twiceColored = .ok (parseStylesheet twiceColored) :=
    loadSheet_eq_ok_iff.mpr ⟨by decide +kernel, by decide +kernel, rfl⟩
  obtain ⟨⟨listed, hcolors, hlisted⟩, values, hproperty, hvalues⟩ :=
    colors_and_property_eq_walk hload "color".toList
  refine ⟨hload, ⟨listed, hcolors, ?_⟩, values, hproperty, ?_⟩
  · rw [(hlisted _).2]
    decide +kernel
  · rw [(hvalues _).2]
    decide +kernel

end StyleAudit.Extract
