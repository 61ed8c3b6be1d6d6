import StyleAudit.Extract.Fonts
import StyleAudit.Proofs.Css.Starts
import StyleAudit.Proofs.Text.Trim

/-!
# The blocks that the question about fonts enters

A block is entered from the outside: first the at-rules at the top level, whose insides are
stylesheets, then a qualified rule, and from there on whatever rule has a block, because inside a
block every block is read as one.  So a block is known by its *address*, the numbers of the rules
and items that one goes through on the way to it, and the way also collects the selectors that the
block stands under (`ReachedInSheet`, `ReachedInBlock`).  A qualified rule adds its selector to
them and an at-rule adds nothing.

Addresses are compared like words in a dictionary.  In that order a block comes before the blocks
inside it and those come in source order.  `sheetBlocks` lists the blocks of a stylesheet: **it
lists exactly the blocks that are reached** (`mem_sheetBlocks_iff`), **in the order of their
addresses, so each of them once** (`pairwise_sheetBlocks`).

The selectors of the way are joined by spaces, empty ones left out (`joinPath`).  The walk joins
them one at a time, trimming what it has, and that is the same because the grammar's selectors are
trimmed (`joinSelectors_joinPath`).
-/

namespace StyleAudit.Css

/-- What a rule adds to the selectors that hold inside its block. -/
def Rule.selectors : Rule → List Text
  | .qualified rule => [rule.selector]
  | _ => []

/-- What an item adds to the selectors that hold inside its block. -/
def Item.selectors : Item → List Text
  | .rule r => r.selectors
  | _ => []

end StyleAudit.Css

namespace StyleAudit.Extract

open Css

/-! ## Ways into a stylesheet -/

/-- A block as it is reached from some place outside of it. -/
structure Block where
  /-- The numbers of the rules and items that lead to the block, from the outside in. -/
  address : List Nat
  /-- The selectors of the qualified rules on the way, from the outside in. -/
  path : List Text
  /-- The inside of the block. -/
  body : Text
  deriving DecidableEq, Repr

namespace Block

/-- The block with the inside `body`, as it is reached from itself. -/
def here (body : Text) : Block := ⟨[], [], body⟩

/-- The block as it is reached from one place further out, through the `i`-th rule or item there. -/
def under (i : Nat) (selectors : List Text) (b : Block) : Block :=
  ⟨i :: b.address, selectors ++ b.path, b.body⟩

end Block

/-- The block is reached from the block with the inside `body`, which may be the block itself. -/
inductive ReachedInBlock : Text → Block → Prop
  | here (body : Text) : ReachedInBlock body (.here body)
  | inside {body inner : Text} {i : Nat} {item : Item} {b : Block}
      (hitem : (parseBlock body)[i]? = some item) (hinner : item.body? = some inner)
      (h : ReachedInBlock inner b) : ReachedInBlock body (b.under i item.selectors)

/-- The block is reached from the stylesheet. -/
inductive ReachedInSheet : Text → Block → Prop
  | rule {t : Text} {i : Nat} {rule : QualifiedRule} {b : Block}
      (hrule : (parseStylesheet t)[i]? = some (.qualified rule))
      (h : ReachedInBlock rule.body b) : ReachedInSheet t (b.under i [rule.selector])
  | atRule {t inner : Text} {i : Nat} {rule : AtRule} {b : Block}
      (hrule : (parseStylesheet t)[i]? = some (.atRule rule)) (hinner : rule.body = some inner)
      (h : ReachedInSheet inner b) : ReachedInSheet t (b.under i [])

/-! ### Inductions over what is inside -/

/-- What holds of a block if it holds of the blocks inside it holds of every block. -/
theorem block_induction {P : Text → Prop}
    (h : ∀ t, (∀ item ∈ parseBlock t, ∀ inner, item.body? = some inner → P inner) → P t)
    (t : Text) : P t := by
  induction hn : t.length using Nat.strong_induction_on generalizing t with
  | _ n ih =>
    subst hn
    exact h t fun item hitem inner hinner =>
      ih inner.length (body_of_mem_parseBlock hitem hinner).2 inner rfl

/-- What holds of a stylesheet if it holds of the insides of its rules, read as stylesheets, holds
of every stylesheet. -/
theorem sheet_induction {P : Text → Prop}
    (h : ∀ t, (∀ rule ∈ parseStylesheet t, ∀ inner, rule.body? = some inner → P inner) → P t)
    (t : Text) : P t := by
  induction hn : t.length using Nat.strong_induction_on generalizing t with
  | _ n ih =>
    subst hn
    exact h t fun rule hrule inner hinner =>
      ih inner.length (body_of_mem_parseStylesheet hrule hinner).2 inner rfl

/-! ## Listing the blocks -/

section Numbered

variable {α : Type} (share : α → List Block) (selectors : α → List Text)

/-- The blocks that the members of a list bring along, seen from where the list stands; the first
member has the number `i`. -/
def numbered (i : Nat) (l : List α) : List Block :=
  (l.zipIdx i).flatMap fun x => (share x.1).map (Block.under x.2 (selectors x.1))

theorem numbered_cons (i : Nat) (a : α) (l : List α) :
    numbered share selectors i (a :: l) =
      (share a).map (Block.under i (selectors a)) ++ numbered share selectors (i + 1) l := by
  rw [numbered, List.zipIdx_cons, List.flatMap_cons, ← numbered]

theorem mem_numbered_iff {l : List α} {b : Block} :
    b ∈ numbered share selectors 0 l ↔
      ∃ i a c, l[i]? = some a ∧ c ∈ share a ∧ b = c.under i (selectors a) := by
  rw [numbered, List.mem_flatMap]
  constructor
  · rintro ⟨⟨a, i⟩, hmem, hb⟩
    obtain ⟨c, hc, rfl⟩ := List.mem_map.mp hb
    exact ⟨i, a, c, List.mem_zipIdx_iff_getElem?.mp hmem, hc, rfl⟩
  · rintro ⟨i, a, c, ha, hc, rfl⟩
    exact ⟨(a, i), List.mem_zipIdx_iff_getElem?.mpr ha, List.mem_map_of_mem hc⟩

/-- If each member brings its blocks along in the order of their addresses, so does the list. -/
theorem pairwise_numbered {l : List α}
    (h : ∀ a ∈ l, (share a).Pairwise fun b c => b.address < c.address) (i : Nat) :
    (numbered share selectors i l).Pairwise fun b c => b.address < c.address := by
  rw [numbered, List.pairwise_flatMap]
  constructor
  · rintro ⟨a, n⟩ hmem
    rw [List.pairwise_map]
    refine (h a (List.fst_mem_of_mem_zipIdx hmem)).imp fun hlt => ?_
    exact List.cons_lt_cons_iff.mpr (.inr ⟨rfl, hlt⟩)
  · have hnumbers : (l.zipIdx i).Pairwise fun x y => x.2 < y.2 := by
      rw [← List.pairwise_map (f := Prod.snd) (R := (· < ·)), List.zipIdx_map_snd]
      exact List.pairwise_lt_range'
    refine hnumbers.imp fun hlt x hx y hy => ?_
    obtain ⟨b, -, rfl⟩ := List.mem_map.mp hx
    obtain ⟨c, -, rfl⟩ := List.mem_map.mp hy
    exact List.cons_lt_cons_iff.mpr (.inl hlt)

end Numbered

theorem weight_items_lt_of_body? {item : Item} {body : Text} (h : item.body? = some body) :
    itemWeight (parseBlock body) < item.weight := by
  cases item with
  | declaration d => cases h
  | error issue => cases h
  | rule r =>
    cases r with
    | error issue => cases h
    | qualified rule =>
      cases h
      exact rule.weight_items_lt
    | atRule rule =>
      have hbody : rule.body = some body := h
      have hlt := weight_blockItems_lt rule
      rwa [blockItems, hbody] at hlt

/-- The blocks in the items from the `i`-th on, each followed by the blocks inside it. -/
def itemBlocks (i : Nat) : List Item → List Block
  | [] => []
  | item :: items =>
    (match _h : item.body? with
      | some body => Block.here body :: itemBlocks 0 (parseBlock body)
      | none => []).map (Block.under i item.selectors) ++ itemBlocks (i + 1) items
termination_by items => itemWeight items
decreasing_by
  all_goals simp only [itemWeight_cons]
  · have := weight_items_lt_of_body? _h; omega
  · have := item.weight_pos; omega

/-- A block and the blocks inside it. -/
def blocksOf (body : Text) : List Block := .here body :: itemBlocks 0 (parseBlock body)

/-- The blocks in the rules of a stylesheet from the `i`-th on. -/
def ruleBlocks (i : Nat) : List Rule → List Block
  | [] => []
  | .qualified rule :: rules =>
    (blocksOf rule.body).map (Block.under i [rule.selector]) ++ ruleBlocks (i + 1) rules
  | .atRule rule :: rules =>
    (ruleBlocks 0 rule.rules).map (Block.under i []) ++ ruleBlocks (i + 1) rules
  | .error _ :: rules => ruleBlocks (i + 1) rules
termination_by rules => ruleWeight rules
decreasing_by
  all_goals simp only [ruleWeight_cons]
  · have := (Rule.qualified rule).weight_pos; omega
  · have := rule.weight_rules_lt; omega
  · have := (Rule.atRule rule).weight_pos; omega
  · simp only [Rule.weight]; omega

/-- The blocks of a stylesheet. -/
def sheetBlocks (t : Text) : List Block := ruleBlocks 0 (parseStylesheet t)

/-! ### One level of the list -/

/-- The blocks that an item brings along: its own, if it is a rule with one, and those inside. -/
def itemShare (item : Item) : List Block := (item.body?.map blocksOf).getD []

/-- The blocks that a rule of a stylesheet brings along.  The inside of an at-rule is a
stylesheet. -/
def ruleShare : Rule → List Block
  | .qualified rule => blocksOf rule.body
  | .atRule rule => (rule.body.map sheetBlocks).getD []
  | .error _ => []

theorem itemBlocks_eq_numbered (i : Nat) (items : List Item) :
    itemBlocks i items = numbered itemShare Item.selectors i items := by
  induction items generalizing i with
  | nil => rw [itemBlocks]; rfl
  | cons item items ih =>
    rw [itemBlocks, numbered_cons, ih, itemShare]
    split
    next body h => rw [h]; rfl
    next h => rw [h]; rfl

theorem ruleBlocks_eq_numbered (i : Nat) (rules : List Rule) :
    ruleBlocks i rules = numbered ruleShare Rule.selectors i rules := by
  induction rules generalizing i with
  | nil => rw [ruleBlocks]; rfl
  | cons rule rules ih =>
    rw [numbered_cons]
    cases rule with
    | qualified rule => rw [ruleBlocks, ih]; rfl
    | atRule rule =>
      rw [ruleBlocks, ih, AtRule.rules, ruleShare]
      cases rule.body with
      | none => rw [ruleBlocks]; rfl
      | some body => rfl
    | error issue => rw [ruleBlocks, ih]; rfl

theorem mem_itemShare_iff {item : Item} {b : Block} :
    b ∈ itemShare item ↔ ∃ inner, item.body? = some inner ∧ b ∈ blocksOf inner := by
  rw [itemShare]
  cases item.body? with
  | none => simp
  | some inner => simp

/-! ### The list has what is reached, in order -/

/-- **The blocks listed for a block are those that are reached from it.** -/
theorem mem_blocksOf_iff {body : Text} {b : Block} : b ∈ blocksOf body ↔ ReachedInBlock body b := by
  constructor
  · induction body using block_induction generalizing b with
    | h body ih =>
      rw [blocksOf, itemBlocks_eq_numbered, List.mem_cons, mem_numbered_iff]
      rintro (rfl | ⟨i, item, c, hitem, hc, rfl⟩)
      · exact .here body
      · obtain ⟨inner, hinner, hc⟩ := mem_itemShare_iff.mp hc
        exact .inside hitem hinner (ih item (List.mem_of_getElem? hitem) inner hinner hc)
  · intro h
    induction h with
    | here body => exact List.mem_cons_self
    | inside hitem hinner _ ih =>
      rw [blocksOf, itemBlocks_eq_numbered, List.mem_cons, mem_numbered_iff]
      exact .inr ⟨_, _, _, hitem, mem_itemShare_iff.mpr ⟨_, hinner, ih⟩, rfl⟩

/-- **The blocks listed for a stylesheet are those that are reached from it.** -/
theorem mem_sheetBlocks_iff {t : Text} {b : Block} : b ∈ sheetBlocks t ↔ ReachedInSheet t b := by
  constructor
  · induction t using sheet_induction generalizing b with
    | h t ih =>
      rw [sheetBlocks, ruleBlocks_eq_numbered, mem_numbered_iff]
      rintro ⟨i, rule, c, hrule, hc, rfl⟩
      cases rule with
      | qualified rule => exact .rule hrule (mem_blocksOf_iff.mp hc)
      | atRule rule =>
        rw [ruleShare] at hc
        cases hinner : rule.body with
        | none => rw [hinner] at hc; cases hc
        | some inner =>
          rw [hinner] at hc
          exact .atRule hrule hinner (ih _ (List.mem_of_getElem? hrule) inner hinner hc)
      | error issue => cases hc
  · intro h
    induction h with
    | rule hrule h =>
      rw [sheetBlocks, ruleBlocks_eq_numbered, mem_numbered_iff]
      exact ⟨_, _, _, hrule, mem_blocksOf_iff.mpr h, rfl⟩
    | atRule hrule hinner _ ih =>
      rw [sheetBlocks, ruleBlocks_eq_numbered, mem_numbered_iff]
      refine ⟨_, _, _, hrule, ?_, rfl⟩
      rw [ruleShare, hinner]
      exact ih

theorem pairwise_blocksOf (body : Text) :
    (blocksOf body).Pairwise fun b c => b.address < c.address := by
  induction body using block_induction with
  | h body ih =>
    rw [blocksOf, itemBlocks_eq_numbered, List.pairwise_cons]
    constructor
    · intro c hc
      obtain ⟨i, item, c, -, -, rfl⟩ := (mem_numbered_iff _ _).mp hc
      exact List.nil_lt_cons i c.address
    · refine pairwise_numbered _ _ (fun item hitem => ?_) 0
      rw [itemShare]
      cases hinner : item.body? with
      | none => exact .nil
      | some inner => exact ih item hitem inner hinner

/-- **The blocks of a stylesheet are listed in the order of their addresses.** -/
theorem pairwise_sheetBlocks (t : Text) :
    (sheetBlocks t).Pairwise fun b c => b.address < c.address := by
  induction t using sheet_induction with
  | h t ih =>
    rw [sheetBlocks, ruleBlocks_eq_numbered]
    refine pairwise_numbered _ _ (fun rule hrule => ?_) 0
    cases rule with
    | qualified rule => exact pairwise_blocksOf rule.body
    | atRule rule =>
      rw [ruleShare]
      cases hinner : rule.body with
      | none => exact .nil
      | some inner => exact ih _ hrule inner hinner
    | error issue => exact .nil

/-! ## Joined selectors -/

/-- The selectors of a path joined by spaces, empty ones left out. -/
def joinPath (path : List Text) : Text := [' '].intercalate (path.filter fun s => !s.isEmpty)

theorem intercalate_concat {sep s : Text} {l : List Text} (hl : l ≠ []) :
    sep.intercalate (l ++ [s]) = sep.intercalate l ++ sep ++ s := by
  induction l with
  | nil => exact absurd rfl hl
  | cons a l ih =>
    cases l with
    | nil => rw [List.singleton_append, List.intercalate_cons_cons, List.intercalate_singleton,
        List.intercalate_singleton]
    | cons b l =>
      rw [List.cons_append, List.cons_append, List.intercalate_cons_cons, ← List.cons_append,
        ih (List.cons_ne_nil b l), List.intercalate_cons_cons]
      simp only [List.append_assoc]

theorem joinPath_concat_nil (path : List Text) : joinPath (path ++ [[]]) = joinPath path := by
  rw [joinPath, List.filter_append]
  simp [joinPath]

theorem joinPath_concat {path : List Text} {s : Text} (hs : s ≠ []) :
    joinPath (path ++ [s]) = if joinPath path = [] then s else joinPath path ++ ' ' :: s := by
  have hkeeps : joinPath (path ++ [s]) =
      [' '].intercalate ((path.filter fun s => !s.isEmpty) ++ [s]) := by
    have hlast : [s].filter (fun s => !s.isEmpty) = [s] := by simp [hs]
    rw [joinPath, List.filter_append, hlast]
  rw [hkeeps]
  by_cases hpath : (path.filter fun s => !s.isEmpty) = []
  · rw [joinPath, hpath, List.intercalate_nil, if_pos rfl, List.nil_append,
      List.intercalate_singleton]
  · have hne : joinPath path ≠ [] := by
      intro hnil
      obtain ⟨a, l, hal⟩ := List.exists_cons_of_ne_nil hpath
      have ha : a ≠ [] := by
        have hmem : a ∈ path.filter fun s => !s.isEmpty := hal ▸ List.mem_cons_self
        simpa using (List.mem_filter.mp hmem).2
      rw [joinPath, hal] at hnil
      cases l with
      | nil => exact ha (by simpa using hnil)
      | cons b l =>
        rw [List.intercalate_cons_cons, List.append_assoc] at hnil
        exact ha (List.append_eq_nil_iff.mp hnil).1
    rw [if_neg hne, intercalate_concat hpath, joinPath, List.append_assoc]
    rfl

/-- Two texts without blanks at their ends, with a space in between, have none either. -/
theorem trim_append_space {t s : Text} (ht : t.trim = t) (hne : t ≠ []) (hs : s.trim = s)
    (hsne : s ≠ []) : Text.trim (t ++ ' ' :: s) = t ++ ' ' :: s := by
  obtain ⟨c, u, rfl⟩ := List.exists_cons_of_ne_nil hne
  refine Text.trim_eq_self (fun x hx => ?_) fun x hx => ?_
  · exact (Text.not_isBlank_of_trim_eq_self ht).1 x hx
  · refine (Text.not_isBlank_of_trim_eq_self hs).2 x ?_
    obtain ⟨d, v, rfl⟩ := List.exists_cons_of_ne_nil hsne
    rw [List.getLast?_append] at hx
    simpa using hx

/-- The selectors of a path are trimmed when they are joined, if they were before. -/
theorem trim_joinPath {path : List Text} (h : ∀ s ∈ path, s.trim = s) :
    (joinPath path).trim = joinPath path := by
  induction path using List.reverseRecOn with
  | nil => rfl
  | append_singleton path s ih =>
    have hpath := ih fun s hs => h s (List.mem_append_left _ hs)
    have hs := h s (List.mem_append_right _ (List.mem_singleton_self s))
    by_cases hne : s = []
    · rw [hne, joinPath_concat_nil, hpath]
    · rw [joinPath_concat hne]
      split
      · exact hs
      next hjoined => exact trim_append_space hpath hjoined hs hne

/-- **Joining one more selector to those of a path**, with the space in front of it trimmed away if
the selector is empty, joins the longer path. -/
theorem joinSelectors_joinPath {path : List Text} {s : Text} (hpath : ∀ s ∈ path, s.trim = s)
    (hs : s.trim = s) : joinSelectors (joinPath path) s = joinPath (path ++ [s]) := by
  by_cases hne : s = []
  · subst hne
    rw [joinPath_concat_nil, joinSelectors]
    split
    next hempty => exact (List.isEmpty_iff.mp hempty).symm
    · rw [Text.trim_concat_of_isBlank rfl, trim_joinPath hpath]
  · rw [joinPath_concat hne, joinSelectors]
    by_cases hjoined : joinPath path = []
    · rw [if_pos hjoined, if_pos (List.isEmpty_iff.mpr hjoined)]
    · rw [if_neg hjoined, if_neg (fun h => hjoined (List.isEmpty_iff.mp h)),
        trim_append_space (trim_joinPath hpath) hjoined hs hne]

/-- The same for any number of further selectors. -/
theorem foldl_joinSelectors_joinPath {path more : List Text} (hpath : ∀ s ∈ path, s.trim = s)
    (hmore : ∀ s ∈ more, s.trim = s) :
    more.foldl joinSelectors (joinPath path) = joinPath (path ++ more) := by
  induction more generalizing path with
  | nil => rw [List.foldl_nil, List.append_nil]
  | cons s more ih =>
    obtain ⟨hs, hmore⟩ := List.forall_mem_cons.mp hmore
    have hlonger : ∀ s' ∈ path ++ [s], s'.trim = s' := by
      intro s' hs'
      rcases List.mem_append.mp hs' with hs' | hs'
      · exact hpath s' hs'
      · rw [List.mem_singleton.mp hs', hs]
    rw [List.foldl_cons, joinSelectors_joinPath hpath hs, ih hlonger hmore, List.append_assoc,
      List.singleton_append]

/-! ### The selectors of the grammar are trimmed -/

theorem trim_selector_qualifiedAhead {nested : Bool} {eof : Place} {ls : List Lexeme}
    {rule : QualifiedRule} (h : (qualifiedAhead nested eof ls).1 = .ok rule) :
    rule.selector.trim = rule.selector := by
  simp only [qualifiedAhead] at h
  split at h
  · cases h
  · split at h
    · cases h
    · split at h
      · cases h
        exact Text.trim_trim _
      · cases h

theorem trim_selector_of_mem_parseStylesheet {t : Text} {rule : QualifiedRule}
    (h : Rule.qualified rule ∈ parseStylesheet t) : rule.selector.trim = rule.selector := by
  rw [parseStylesheet, rulesFrom_eq_map] at h
  obtain ⟨s, hs, hrule⟩ := List.mem_map.mp h
  obtain ⟨l, ls, rfl⟩ := List.exists_cons_of_ne_nil (ruleStarts_suffix hs).1
  exact trim_selector_qualifiedAhead (qualified_of_ruleAt hrule).1

theorem trim_selector_of_mem_parseBlock {t : Text} {rule : QualifiedRule}
    (h : Item.rule (.qualified rule) ∈ parseBlock t) : rule.selector.trim = rule.selector := by
  rw [parseBlock, itemsFrom_eq_map] at h
  obtain ⟨s, hs, hitem⟩ := List.mem_map.mp h
  obtain ⟨l, ls, rfl⟩ := List.exists_cons_of_ne_nil (itemStarts_suffix hs).1
  exact trim_selector_qualifiedAhead (qualified_of_itemAt hitem).1

/-- What the items of a block add to the selectors is trimmed. -/
theorem trim_selectors_of_mem_parseBlock {t : Text} {item : Item} (h : item ∈ parseBlock t) :
    ∀ s ∈ item.selectors, s.trim = s := by
  intro s hs
  match item, h, hs with
  | .rule (.qualified rule), h, hs =>
    rw [List.mem_singleton.mp hs]
    exact trim_selector_of_mem_parseBlock h

end StyleAudit.Extract
