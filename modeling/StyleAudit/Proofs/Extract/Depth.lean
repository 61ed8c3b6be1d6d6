import StyleAudit.Extract.Colors
import StyleAudit.Extract.Fonts
import StyleAudit.Extract.Property
import StyleAudit.Proofs.Css.Starts

/-!
# How deep the walks go

Three walks enter blocks: those that collect colours, the values of a property, and fonts.  They
do not descend a tree that is there from the start.  A block is a text, it is read again, and the
rules that are found in it have blocks that are texts again.

Here each walk is written once more, with a limit on how many blocks it may be inside of at a
time (`collectWithin`, `addInnerFontsWithin`, `addFontsWithin`).  One level of a walk is a
recursion on the list of rules that leaves open what is done with a block (`collectLevel`,
`addInnerFontsLevel`); the whole walk is a recursion on the limit.  Both end whatever the reading
of a block may answer.  The price is one more way to end: without an answer, when the limit is too
low.

A block is shorter than the text that it is read from, so a limit that is longer than all blocks
of a list is enough for the list: one level further down the same holds of the limit that is less
by one.  Hence **the length of a text is limit enough** for all walks over it, and their answers
are those of the walks without a limit (`walks_within_length`).
-/

namespace StyleAudit.Extract

open Css

/-- The limit is longer than every block of a rule in the list. -/
def Covers (limit : Nat) (rules : List Rule) : Prop :=
  ∀ rule ∈ rules, ∀ body, rule.body? = some body → body.length < limit

/-- The limit is longer than every block of an item in the list. -/
def CoversItems (limit : Nat) (items : List Item) : Prop :=
  ∀ item ∈ items, ∀ body, item.body? = some body → body.length < limit

theorem covers_parseStylesheet {limit : Nat} {t : Text} (h : t.length ≤ limit) :
    Covers limit (parseStylesheet t) := fun _ hrule _ hbody =>
  Nat.lt_of_lt_of_le (body_of_mem_parseStylesheet hrule hbody).2 h

theorem coversItems_parseBlock {limit : Nat} {t : Text} (h : t.length ≤ limit) :
    CoversItems limit (parseBlock t) := fun _ hitem _ hbody =>
  Nat.lt_of_lt_of_le (body_of_mem_parseBlock hitem hbody).2 h

/-! ## Walks that cannot fail -/

section Collect

variable {σ : Type}

/-- One level of a walk over rules: a step for every qualified rule, in source order, and `enter`
for the block of every at-rule. -/
def collectLevel (step : σ → QualifiedRule → σ) (enter : σ → Text → Option σ) :
    σ → List Rule → Option σ
  | s, [] => some s
  | s, .qualified rule :: rules => collectLevel step enter (step s rule) rules
  | s, .atRule rule :: rules => do
    let s ← match rule.body with
      | none => some s
      | some body => enter s body
    collectLevel step enter s rules
  | s, .error _ :: rules => collectLevel step enter s rules

/-- A walk that enters the blocks of at-rules, but no more than `limit` of them inside one
another.  It has no answer if there are more. -/
def collectWithin (step : σ → QualifiedRule → σ) : Nat → σ → List Rule → Option σ
  | 0 => collectLevel step fun _ _ => none
  | limit + 1 => collectLevel step fun s body =>
    collectWithin step limit s (parseStylesheet body)

/-- The walk takes `step` for every qualified rule and enters the blocks of at-rules. -/
structure IsWalk (collect : σ → List Rule → σ) (step : σ → QualifiedRule → σ) : Prop where
  nil : ∀ s, collect s [] = s
  qualified : ∀ s rule rules, collect s (.qualified rule :: rules) = collect (step s rule) rules
  atRule : ∀ s rule rules,
    collect s (.atRule rule :: rules) = collect (collect s rule.rules) rules
  error : ∀ s issue rules, collect s (.error issue :: rules) = collect s rules

variable {collect : σ → List Rule → σ} {step : σ → QualifiedRule → σ}

/-- A level of a walk that does the right thing with every block is the walk. -/
theorem IsWalk.collectLevel_eq (hwalk : IsWalk collect step) {enter : σ → Text → Option σ}
    {rules : List Rule}
    (henter : ∀ rule ∈ rules, ∀ body, rule.body? = some body →
      ∀ s, enter s body = some (collect s (parseStylesheet body))) (s : σ) :
    collectLevel step enter s rules = some (collect s rules) := by
  induction rules generalizing s with
  | nil => rw [collectLevel, hwalk.nil]
  | cons rule rules ih =>
    have ih := ih fun r hr => henter r (List.mem_cons_of_mem rule hr)
    cases rule with
    | qualified rule => rw [collectLevel, hwalk.qualified, ih]
    | error issue => rw [collectLevel, hwalk.error, ih]
    | atRule rule =>
      rw [collectLevel, hwalk.atRule, AtRule.rules]
      cases hbody : rule.body with
      | none => simp only [Option.bind_eq_bind, Option.bind_some, hwalk.nil, ih]
      | some body =>
        simp only [Option.bind_eq_bind, henter _ List.mem_cons_self body hbody s,
          Option.bind_some, ih]

/-- **A walk does not go deeper than a limit that is longer than all blocks.** -/
theorem IsWalk.collectWithin_eq (hwalk : IsWalk collect step) {limit : Nat} {rules : List Rule}
    (h : Covers limit rules) (s : σ) :
    collectWithin step limit s rules = some (collect s rules) := by
  induction limit generalizing rules s with
  | zero =>
    exact hwalk.collectLevel_eq (fun rule hrule body hbody =>
      absurd (h rule hrule body hbody) (Nat.not_lt_zero _)) s
  | succ limit ih =>
    -- the rules inside a block have blocks shorter than it, so one level further down the
    -- limit is again longer than all blocks
    exact hwalk.collectLevel_eq (fun rule hrule body hbody s =>
      ih (covers_parseStylesheet (Nat.le_of_lt_succ (h rule hrule body hbody))) s) s

theorem isWalk_collectColors : IsWalk collectColors addColors where
  nil s := by rw [collectColors]
  qualified s rule rules := by rw [collectColors]
  atRule s rule rules := by rw [collectColors]
  error s issue rules := by rw [collectColors]

theorem isWalk_collectProperty (name : Text) :
    IsWalk (collectProperty name) (addProperty name) where
  nil s := by rw [collectProperty]
  qualified s rule rules := by rw [collectProperty]
  atRule s rule rules := by rw [collectProperty]
  error s issue rules := by rw [collectProperty]

end Collect

/-! ## Walks that can fail -/

/-- A walk for fonts that stops without a failure has met its limit. -/
abbrev LimitedFonts := Except (Option Failure) FontTable

/-- One level of the walk over the items of a block: `enter` is given the selector that holds
inside of a block, and the block. -/
def addInnerFontsLevel (enter : Text → Text → FontTable → LimitedFonts) (selector : Text) :
    List Item → FontTable → LimitedFonts
  | [], found => .ok found
  | .rule (.qualified rule) :: items, found => do
    let found ← enter (joinSelectors selector rule.selector) rule.body found
    addInnerFontsLevel enter selector items found
  | .rule (.atRule rule) :: items, found => do
    let found ← match rule.body with
      | none => .ok found
      | some body =>
        (enter selector body found).mapError
          (Option.map (.nested ("@" ++ String.ofList rule.keyword)))
    addInnerFontsLevel enter selector items found
  | .rule (.error issue) :: _, _ => .error (some (.ofIssue issue))
  | .declaration _ :: items, found => addInnerFontsLevel enter selector items found
  | .error _ :: items, found => addInnerFontsLevel enter selector items found

/-- The fonts of a block: its own declarations, then those of the rules inside it, for which
`inner` is the walk. -/
def addBlockFonts (inner : Text → List Item → FontTable → LimitedFonts) (selector body : Text)
    (found : FontTable) : LimitedFonts := do
  let found ← (addOwnFonts selector (parseBlock body) found).mapError some
  inner selector (parseBlock body) found

/-- The walk over the items of a block that is inside of no more than `limit` blocks at a time,
the block itself not counted. -/
def addInnerFontsWithin : Nat → Text → List Item → FontTable → LimitedFonts
  | 0 => addInnerFontsLevel fun _ _ _ => .error none
  | limit + 1 => addInnerFontsLevel (addBlockFonts (addInnerFontsWithin limit))

/-- One level of the walk over the rules of a stylesheet. -/
def addFontsLevel (enterRule : Text → Text → FontTable → LimitedFonts)
    (enterAtRule : Text → FontTable → LimitedFonts) : List Rule → FontTable → LimitedFonts
  | [], found => .ok found
  | .qualified rule :: rules, found => do
    let found ← enterRule rule.selector rule.body found
    addFontsLevel enterRule enterAtRule rules found
  | .atRule rule :: rules, found => do
    let found ← match rule.body with
      | none => .ok found
      | some body => enterAtRule body found
    addFontsLevel enterRule enterAtRule rules found
  | .error _ :: rules, found => addFontsLevel enterRule enterAtRule rules found

/-- The walk over the rules of a stylesheet that is inside of no more than `limit` blocks at a
time. -/
def addFontsWithin : Nat → List Rule → FontTable → LimitedFonts
  | 0 => addFontsLevel (fun _ _ _ => .error none) fun _ _ => .error none
  | limit + 1 =>
    addFontsLevel (addBlockFonts (addInnerFontsWithin limit)) fun body =>
      addFontsWithin limit (parseStylesheet body)

/-- Failures are reworded step by step. -/
theorem mapError_bind {ε ε' α β : Type} (g : ε → ε') (x : Except ε α) (f : α → Except ε β) :
    (x >>= f).mapError g = x.mapError g >>= fun a => (f a).mapError g := by
  cases x <;> rfl

theorem mapError_mapError {ε ε' ε'' α : Type} (g : ε → ε') (g' : ε' → ε'') (x : Except ε α) :
    (x.mapError g).mapError g' = x.mapError (g' ∘ g) := by
  cases x <;> rfl

/-- The fonts of a block, without a limit. -/
def blockFonts (selector body : Text) (found : FontTable) : Except Failure FontTable :=
  addOwnFonts selector (parseBlock body) found >>= addInnerFonts selector (parseBlock body)

/-- A level of the walk over a block that does the right thing with every block inside is the
walk. -/
theorem addInnerFontsLevel_eq {enter : Text → Text → FontTable → LimitedFonts}
    {items : List Item}
    (henter : ∀ item ∈ items, ∀ body, item.body? = some body → ∀ selector found,
      enter selector body found = (blockFonts selector body found).mapError some)
    (selector : Text) (found : FontTable) :
    addInnerFontsLevel enter selector items found =
      (addInnerFonts selector items found).mapError some := by
  induction items generalizing found with
  | nil => rw [addInnerFonts]; rfl
  | cons item items ih =>
    have ih := ih fun i hi => henter i (List.mem_cons_of_mem item hi)
    have henter := henter item List.mem_cons_self
    cases item with
    | declaration d => rw [addInnerFonts]; exact ih found
    | error issue => rw [addInnerFonts]; exact ih found
    | rule rule =>
      cases rule with
      | error issue => rw [addInnerFonts]; rfl
      | qualified rule =>
        rw [addInnerFonts, addInnerFontsLevel, henter rule.body rfl]
        simp only [blockFonts, QualifiedRule.items, mapError_bind, bind_assoc, ih]
      | atRule rule =>
        rw [addInnerFonts, addInnerFontsLevel, blockItems, mapError_bind]
        cases hbody : rule.body with
        | none =>
          -- an at-rule without a block is read as one whose block has no items
          have hnone : addOwnFonts selector [] found >>= addInnerFonts selector [] =
              .ok found := by
            show addInnerFonts selector [] found = _
            rw [addInnerFonts]
          simp only [hnone, ih]
          rfl
        | some body =>
          simp only [henter body hbody, mapError_mapError, blockFonts, ih]
          rfl

/-- The same for a level of the walk over a stylesheet. -/
theorem addFontsLevel_eq {enterRule : Text → Text → FontTable → LimitedFonts}
    {enterAtRule : Text → FontTable → LimitedFonts} {rules : List Rule}
    (hrule : ∀ rule, Rule.qualified rule ∈ rules → ∀ found,
      enterRule rule.selector rule.body found =
        (blockFonts rule.selector rule.body found).mapError some)
    (hatRule : ∀ rule, Rule.atRule rule ∈ rules → ∀ body, rule.body = some body → ∀ found,
      enterAtRule body found = (addFonts (parseStylesheet body) found).mapError some)
    (found : FontTable) :
    addFontsLevel enterRule enterAtRule rules found = (addFonts rules found).mapError some := by
  induction rules generalizing found with
  | nil => rw [addFonts]; rfl
  | cons rule rules ih =>
    have ih := ih (fun r hr => hrule r (List.mem_cons_of_mem rule hr))
      fun r hr => hatRule r (List.mem_cons_of_mem rule hr)
    cases rule with
    | error issue => rw [addFonts]; exact ih found
    | qualified rule =>
      rw [addFonts, addFontsLevel, hrule rule List.mem_cons_self]
      simp only [blockFonts, QualifiedRule.items, mapError_bind, bind_assoc, ih]
    | atRule rule =>
      rw [addFonts, addFontsLevel, AtRule.rules, mapError_bind]
      cases hbody : rule.body with
      | none => rw [addFonts]; simp only [ih]; rfl
      | some body => simp only [hatRule rule List.mem_cons_self body hbody, ih]

/-- What is done with a block when the walk over its items is known to be right. -/
theorem addBlockFonts_eq {inner : Text → List Item → FontTable → LimitedFonts}
    {selector body : Text}
    (h : ∀ found, inner selector (parseBlock body) found =
      (addInnerFonts selector (parseBlock body) found).mapError some) (found : FontTable) :
    addBlockFonts inner selector body found =
      (blockFonts selector body found).mapError some := by
  simp only [addBlockFonts, blockFonts, mapError_bind, h]

/-- **The walk over a block does not go deeper than a limit that is longer than all blocks in
it.** -/
theorem addInnerFontsWithin_eq {limit : Nat} {items : List Item} (h : CoversItems limit items)
    (selector : Text) (found : FontTable) :
    addInnerFontsWithin limit selector items found =
      (addInnerFonts selector items found).mapError some := by
  induction limit generalizing items selector found with
  | zero =>
    exact addInnerFontsLevel_eq (fun item hitem body hbody =>
      absurd (h item hitem body hbody) (Nat.not_lt_zero _)) selector found
  | succ limit ih =>
    exact addInnerFontsLevel_eq (fun item hitem body hbody selector => addBlockFonts_eq
      (ih (coversItems_parseBlock (Nat.le_of_lt_succ (h item hitem body hbody))) selector))
      selector found

/-- **The walk over a stylesheet does not go deeper than a limit that is longer than all blocks
in it.** -/
theorem addFontsWithin_eq {limit : Nat} {rules : List Rule} (h : Covers limit rules)
    (found : FontTable) :
    addFontsWithin limit rules found = (addFonts rules found).mapError some := by
  induction limit generalizing rules found with
  | zero =>
    exact addFontsLevel_eq
      (fun rule hrule => absurd (h _ hrule rule.body rfl) (Nat.not_lt_zero _))
      (fun rule hrule body hbody => absurd (h _ hrule body hbody) (Nat.not_lt_zero _)) found
  | succ limit ih =>
    exact addFontsLevel_eq
      (fun rule hrule => addBlockFonts_eq (addInnerFontsWithin_eq
        (coversItems_parseBlock (Nat.le_of_lt_succ (h _ hrule rule.body rfl))) rule.selector))
      (fun rule hrule body hbody =>
        ih (covers_parseStylesheet (Nat.le_of_lt_succ (h _ hrule body hbody)))) found

/-! ## The length of a text is limit enough -/

/-- **Every block in a text is a proper part of the text, and all walks over the text stay within
as many blocks as it has characters.**  This is so of the blocks of a stylesheet and of those that
stand inside of a block, and the text may be malformed in any way. -/
theorem walks_within_length (t : Text) :
    (∀ rule ∈ parseStylesheet t, ∀ body, rule.body? = some body →
      body <:+: t ∧ body.length < t.length) ∧
    (∀ item ∈ parseBlock t, ∀ body, item.body? = some body →
      body <:+: t ∧ body.length < t.length) ∧
    (∀ found, collectWithin addColors t.length found (parseStylesheet t) =
      some (collectColors found (parseStylesheet t))) ∧
    (∀ name found, collectWithin (addProperty name) t.length found (parseStylesheet t) =
      some (collectProperty name found (parseStylesheet t))) ∧
    (∀ found, addFontsWithin t.length (parseStylesheet t) found =
      (addFonts (parseStylesheet t) found).mapError some) ∧
    ∀ selector found, addInnerFontsWithin t.length selector (parseBlock t) found =
      (addInnerFonts selector (parseBlock t) found).mapError some := by
  have hsheet := covers_parseStylesheet (Nat.le_refl t.length)
  have hblock := coversItems_parseBlock (Nat.le_refl t.length)
  exact ⟨fun rule hrule body => body_of_mem_parseStylesheet hrule,
    fun item hitem body => body_of_mem_parseBlock hitem,
    isWalk_collectColors.collectWithin_eq hsheet,
    fun name => (isWalk_collectProperty name).collectWithin_eq hsheet,
    addFontsWithin_eq hsheet, addInnerFontsWithin_eq hblock⟩

/-- A stylesheet that closes neither of its two at-rules. -/
def twoOpenBlocks : Text := "@media a\x7b@media b\x7bc\x7bd:red\x7d".toList

/-- The block of the first at-rule reaches to the end of the text and is shorter than the text.  A
limit of one block is too low for a walk here, and a limit of the length is not. -/
theorem walks_within_length_twoOpenBlocks :
    (∃ rule ∈ parseStylesheet twoOpenBlocks,
      rule.body? = some "@media b\x7bc\x7bd:red\x7d".toList) ∧
    "@media b\x7bc\x7bd:red\x7d".toList.length < twoOpenBlocks.length ∧
    collectWithin addColors 1 ∅ (parseStylesheet twoOpenBlocks) = none ∧
    collectWithin addColors twoOpenBlocks.length ∅ (parseStylesheet twoOpenBlocks) =
      some (collectColors ∅ (parseStylesheet twoOpenBlocks)) := by
  obtain ⟨hbody, -, hcolors, -⟩ := walks_within_length twoOpenBlocks
  have hrule : ∃ rule ∈ parseStylesheet twoOpenBlocks,
      rule.body? = some "@media b\x7bc\x7bd:red\x7d".toList := by decide +kernel
  obtain ⟨rule, hmem, h⟩ := hrule
  refine ⟨⟨rule, hmem, h⟩, (hbody rule hmem _ h).2, ?_, hcolors ∅⟩
  rw [← Option.isNone_iff_eq_none]
  decide +kernel

end StyleAudit.Extract
