import StyleAudit.Css.Parser

/-!
# Rules are larger than what is in them

A block is read again from its own text, and the rules found in it have blocks in turn.
That this comes to an end is a fact about sizes.  The *weight* of a rule is one more than the
length of its block.  The rules of a stylesheet together weigh no more than the stylesheet
is long (`weight_parseStylesheet_le`), since their blocks stand in it side by side and each
rule has at least one character outside of its block: the brace, or what else it begins with.
The same holds of the items of a block (`weight_parseBlock_le`).

So the rules inside an at-rule weigh less than the at-rule does (`weight_rules_lt`), and a
walk over rules that enters their blocks has the weight as its measure.
-/

namespace StyleAudit.Css

/-- One more than the length of the rule's block. -/
def Rule.weight : Rule → Nat
  | .qualified r => r.body.length + 1
  | .atRule r => (r.body.getD []).length + 1
  | .error _ => 1

/-- The weight of the rule that the item is; one if it is none. -/
def Item.weight : Item → Nat
  | .rule r => r.weight
  | _ => 1

/-- The weight of all rules of a list. -/
def ruleWeight : List Rule → Nat
  | [] => 0
  | r :: rs => r.weight + ruleWeight rs

/-- The weight of all items of a list. -/
def itemWeight : List Item → Nat
  | [] => 0
  | i :: is => i.weight + itemWeight is

@[simp] theorem ruleWeight_nil : ruleWeight [] = 0 := rfl

@[simp] theorem ruleWeight_cons (r : Rule) (rs : List Rule) :
    ruleWeight (r :: rs) = r.weight + ruleWeight rs := rfl

@[simp] theorem itemWeight_nil : itemWeight [] = 0 := rfl

@[simp] theorem itemWeight_cons (i : Item) (is : List Item) :
    itemWeight (i :: is) = i.weight + itemWeight is := rfl

theorem Rule.weight_pos (r : Rule) : 0 < r.weight := by
  cases r <;> simp only [weight] <;> omega

theorem Item.weight_pos (i : Item) : 0 < i.weight := by
  cases i with
  | rule r => exact r.weight_pos
  | declaration d => exact Nat.one_pos
  | error i => exact Nat.one_pos

/-! ## One rule -/

/-- How many characters a list of lexemes takes in the text. -/
abbrev extent (ls : List Lexeme) : Nat := (Lexeme.sourceOf ls).length

theorem extent_tail_lt {ls : List Lexeme} (hne : ∀ l ∈ ls, l.text ≠ []) (h : ls ≠ []) :
    extent ls.tail < extent ls := by
  match ls with
  | [] => exact absurd rfl h
  | l :: ls =>
    have := List.length_pos_iff.2 (hne l (List.mem_cons_self ..))
    simp only [extent, List.tail_cons, Lexeme.sourceOf_cons, List.length_append]
    omega

theorem extent_lt_of_cons_suffix {l : Lexeme} {rest ls : List Lexeme}
    (hne : ∀ l ∈ ls, l.text ≠ []) (h : l :: rest <:+ ls) : extent rest < extent ls := by
  have h₁ := Lexeme.length_sourceOf_le h
  have h₂ := List.length_pos_iff.2 (hne l (h.subset (List.mem_cons_self ..)))
  simp only [Lexeme.sourceOf_cons, List.length_append] at h₁
  simp only [extent]
  omega

theorem atRuleAhead_weight (keyword : Text) (line : Nat) (ls : List Lexeme) :
    ((atRuleAhead keyword line ls).1.body.getD []).length +
      extent (atRuleAhead keyword line ls).2 ≤ extent ls := by
  have h₁ := skipBlanks_valuesUntil_suffix endsHead [] ls
  simp only [atRuleAhead]
  split
  · simp [extent]
  next e rest he =>
    rw [he] at h₁
    have h₂ := Lexeme.length_sourceOf_le ((List.suffix_cons e rest).trans h₁)
    split
    · have h₃ := length_blockAhead_add_le rest
      simp only [Option.getD_some, extent] at *
      omega
    · simpa using h₂

theorem qualifiedAhead_weight (nested : Bool) (eof : Place) {ls : List Lexeme}
    (hne : ∀ l ∈ ls, l.text ≠ []) (h : ls ≠ []) :
    (Rule.ofResult (qualifiedAhead nested eof ls).1).weight +
      extent (qualifiedAhead nested eof ls).2 ≤ extent ls := by
  have ht := extent_tail_lt hne h
  have hsuf := Lexeme.length_sourceOf_le (qualifiedAhead_suffix nested eof ls)
  revert hsuf
  simp only [qualifiedAhead]
  split
  · intro hsuf
    simp only [Rule.ofResult, Rule.weight, extent] at *
    omega
  · have h₁ := skipBlanks_valuesUntil_suffix (if nested then endsHead else opensBlock) [] ls
    split
    · intro _
      simp only [Rule.ofResult, Rule.weight, extent] at *
      simp only [Lexeme.sourceOf_nil, List.length_nil]
      omega
    next e rest he =>
      rw [he] at h₁
      have h₂ := extent_lt_of_cons_suffix hne h₁
      split
      · intro _
        have h₃ := length_blockAhead_add_le rest
        simp only [Rule.ofResult, Rule.weight, extent] at *
        omega
      · intro _
        simp only [Rule.ofResult, Rule.weight, extent] at *
        omega

/-! ## Stylesheets and blocks -/

theorem ruleWeight_rulesFrom_le (eof : Place) (first : Bool) (ls : List Lexeme)
    (hne : ∀ l ∈ ls, l.text ≠ []) : ruleWeight (rulesFrom eof first ls) ≤ extent ls := by
  fun_induction rulesFrom eof first ls with
  | case1 => simp
  | case2 first l ls hsep ih =>
    have := ih fun m hm => hne m (List.mem_cons_of_mem l hm)
    simp only [extent, Lexeme.sourceOf_cons, List.length_append] at *
    omega
  | case3 first l ls hsep keyword hk hfirst ih =>
    have hs := (passOver_suffix endsHead ls).trans (List.tail_suffix ls)
    have h₁ := ih fun m hm => hne m (List.mem_cons_of_mem l (hs.subset hm))
    have h₂ := Lexeme.length_sourceOf_le hs
    simp only [extent, Lexeme.sourceOf_cons, List.length_append] at *
    omega
  | case4 first l ls hsep keyword hk hfirst r ih =>
    have hs := atRuleAhead_suffix keyword l.start.line ls
    have h₁ := ih fun m hm => hne m (List.mem_cons_of_mem l (hs.subset hm))
    have h₂ := atRuleAhead_weight keyword l.start.line ls
    have h₃ := List.length_pos_iff.2 (hne l (List.mem_cons_self ..))
    simp only [r, extent, ruleWeight_cons, Rule.weight, Lexeme.sourceOf_cons,
      List.length_append] at *
    omega
  | case5 first l ls hsep r hk ih =>
    have hs := qualifiedAhead_suffix false eof (l :: ls)
    have h₁ := ih fun m hm => hne m (List.mem_cons_of_mem l (hs.subset hm))
    have h₂ := qualifiedAhead_weight false eof hne (List.cons_ne_nil l ls)
    simp only [r, extent, ruleWeight_cons] at *
    omega

theorem Item.weight_ofResult (known : Option Issue) (r : Except Issue QualifiedRule) :
    (Item.ofResult known r).weight = (Rule.ofResult r).weight := by
  cases r <;> rfl

theorem itemWeight_itemsFrom_le (eof : Place) (ls : List Lexeme)
    (hne : ∀ l ∈ ls, l.text ≠ []) : itemWeight (itemsFrom eof ls) ≤ extent ls := by
  fun_induction itemsFrom eof ls with
  | case1 => simp
  | case2 l ls hsep ih =>
    have := ih fun m hm => hne m (List.mem_cons_of_mem l hm)
    simp only [extent, Lexeme.sourceOf_cons, List.length_append] at *
    omega
  | case3 l ls hsep keyword hk r ih =>
    have hs := atRuleAhead_suffix keyword l.start.line ls
    have h₁ := ih fun m hm => hne m (List.mem_cons_of_mem l (hs.subset hm))
    have h₂ := atRuleAhead_weight keyword l.start.line ls
    have h₃ := List.length_pos_iff.2 (hne l (List.mem_cons_self ..))
    simp only [r, extent, itemWeight_cons, Item.weight, Rule.weight, Lexeme.sourceOf_cons,
      List.length_append] at *
    omega
  | case4 l ls hsep name hk d rest hd ih =>
    have hs : rest <:+ ls := declarationAhead_suffix hd
    have h₁ := ih fun m hm => hne m (List.mem_cons_of_mem l (hs.subset hm))
    have h₂ := Lexeme.length_sourceOf_le hs
    have h₃ := List.length_pos_iff.2 (hne l (List.mem_cons_self ..))
    simp only [extent, itemWeight_cons, Item.weight, Lexeme.sourceOf_cons,
      List.length_append] at *
    omega
  | case5 l ls hsep name hk issue hd r ih =>
    have hs := qualifiedAhead_suffix true eof (l :: ls)
    have h₁ := ih fun m hm => hne m (List.mem_cons_of_mem l (hs.subset hm))
    have h₂ := qualifiedAhead_weight true eof hne (List.cons_ne_nil l ls)
    simp only [r, extent, itemWeight_cons, Item.weight_ofResult] at *
    omega
  | case6 l ls hsep r hk hi ih =>
    have hs := qualifiedAhead_suffix true eof (l :: ls)
    have h₁ := ih fun m hm => hne m (List.mem_cons_of_mem l (hs.subset hm))
    have h₂ := qualifiedAhead_weight true eof hne (List.cons_ne_nil l ls)
    simp only [r, extent, itemWeight_cons, Item.weight_ofResult] at *
    omega

/-- **The rules of a stylesheet weigh no more than it is long.** -/
theorem weight_parseStylesheet_le (t : Text) : ruleWeight (parseStylesheet t) ≤ t.length := by
  have h := ruleWeight_rulesFrom_le (endPlace t) true (lexemes t)
    fun l hl => text_ne_nil_of_mem_lexemesFrom hl
  rwa [extent, sourceOf_lexemes] at h

/-- **The items of a block weigh no more than the block is long.** -/
theorem weight_parseBlock_le (t : Text) : itemWeight (parseBlock t) ≤ t.length := by
  have h := itemWeight_itemsFrom_le (endPlace t) (lexemes t)
    fun l hl => text_ne_nil_of_mem_lexemesFrom hl
  rwa [extent, sourceOf_lexemes] at h

/-! ## What is inside weighs less -/

theorem AtRule.weight_rules_lt (r : AtRule) : ruleWeight r.rules < (Rule.atRule r).weight := by
  unfold AtRule.rules
  simp only [Rule.weight]
  split
  · simp
  next body hb =>
    have := weight_parseStylesheet_le body
    simp only [hb, Option.getD_some]
    omega

theorem QualifiedRule.weight_items_lt (r : QualifiedRule) :
    itemWeight r.items < (Rule.qualified r).weight :=
  Nat.lt_succ_of_le (weight_parseBlock_le r.body)

end StyleAudit.Css
