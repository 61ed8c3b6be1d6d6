import StyleAudit.Proofs.Css.Marks
import StyleAudit.Proofs.Css.Runs
import StyleAudit.Proofs.Extract.Refusal
import StyleAudit.Proofs.Outcomes

/-!
# Braces that count, and braces that nest

A stylesheet is refused if its text has more braces of one kind than of the other.  This test reads
characters.  The braces that open and close blocks are tokens, and a text that passes need not have
as many of one kind as of the other, nor need they nest: a brace in a comment, a string, an address
or a name is counted although it is no token, and a closing brace that closes nothing makes up for a
block that is never closed.

So the two ways in which the count and the nesting can differ are made into numbers: the braces that
are *hidden* inside other lexemes, and the closing braces that are *stray* because the innermost
open bracket is not a curly one.  Along any run of lexemes the depth is accounted for by what
opened, what closed and what was stray (`depth_add_closings`), and the characters are the tokens
and what is hidden (`count_sourceOf`).  The main result is `accountsForBraces_of_validate`: what the
test guarantees is that the hidden braces make up for what the tokens lack, and a text that passes
it nests properly exactly if the hidden braces balance and no stray brace comes too early.
-/

namespace StyleAudit.Css

/-! ## Braces -/

/-- The brace that the token is. -/
def Token.brace? : Token → Option Char
  | opening .curly => some '{'
  | closing .curly => some '}'
  | _ => none

theorem Token.mark?_of_brace? {token : Token} {c : Char} (h : token.brace? = some c) :
    token.mark? = some c := by
  unfold brace? at h
  split at h
  · exact h
  · exact h
  · cases h

/-- A lexeme that is a brace is that character. -/
theorem text_eq_of_brace? {t : Text} {l : Lexeme} {b : Char} (hl : l ∈ lexemes t)
    (h : l.token.brace? = some b) : l.text = [b] :=
  text_eq_of_mem_lexemes hl (Token.mark?_of_brace? h)

/-- How many of the tokens are the given brace. -/
def braces (b : Char) (ls : List Lexeme) : Nat := ls.countP fun l => l.token.brace? == some b

/-- How often a character stands in lexemes that are no braces. -/
def hidden (c : Char) (ls : List Lexeme) : Nat :=
  (Lexeme.sourceOf (ls.filter fun l => l.token.brace?.isNone)).count c

theorem braces_cons (b : Char) (l : Lexeme) (ls : List Lexeme) :
    braces b (l :: ls) = braces b ls + (l.token.brace? == some b).toNat := by
  rw [braces, List.countP_cons, ← braces]
  cases l.token.brace? == some b <;> rfl

theorem hidden_cons_of_eq_none {l : Lexeme} (h : l.token.brace? = none) (c : Char)
    (ls : List Lexeme) : hidden c (l :: ls) = l.text.count c + hidden c ls := by
  rw [hidden, List.filter_cons, if_pos (Option.isNone_iff_eq_none.mpr h), Lexeme.sourceOf_cons,
    List.count_append, ← hidden]

theorem hidden_cons_of_eq_some {l : Lexeme} {b : Char} (h : l.token.brace? = some b) (c : Char)
    (ls : List Lexeme) : hidden c (l :: ls) = hidden c ls := by
  have hbrace : ¬ l.token.brace?.isNone = true := by
    rw [h]
    exact Bool.false_ne_true
  rw [hidden, List.filter_cons, if_neg hbrace, ← hidden]

/-- **A character in the text is a brace of its own, or hidden** in another lexeme. -/
theorem count_sourceOf {ls : List Lexeme}
    (h : ∀ l ∈ ls, ∀ b, l.token.brace? = some b → l.text = [b])
    (c : Char) : (Lexeme.sourceOf ls).count c = braces c ls + hidden c ls := by
  induction ls with
  | nil => rfl
  | cons l ls ih =>
    have ih := ih fun m hm => h m (List.mem_cons_of_mem _ hm)
    rw [Lexeme.sourceOf_cons, List.count_append, ih, braces_cons]
    rcases hbrace : l.token.brace? with _ | b
    · rw [hidden_cons_of_eq_none hbrace]
      show _ = braces c ls + 0 + _
      omega
    · have htext : l.text.count c = (some b == some c).toNat := by
        rw [h l List.mem_cons_self b hbrace, List.count_singleton, Option.some_beq_some]
        cases b == c <;> rfl
      rw [hidden_cons_of_eq_some hbrace, htext]
      omega

/-! ## Depth -/

/-- How many blocks are open behind a run of lexemes. -/
def depth (ls : List Lexeme) : Nat := (nestingOf [] ls).count .curly

/-- Whether the token is a closing brace that closes nothing. -/
def Token.isStray (stack : List Bracket) (token : Token) : Bool :=
  token == .closing .curly && stack.head? != some .curly

/-- How many closing braces close nothing. -/
def strays : List Bracket → List Lexeme → Nat
  | _, [] => 0
  | stack, l :: ls => (l.token.isStray stack).toNat + strays (l.token.nesting stack) ls

/-- What one token does to the depth. -/
theorem Token.count_nesting (token : Token) (stack : List Bracket) :
    (token.nesting stack).count .curly + (token.brace? == some '\x7d').toNat =
      stack.count .curly + (token.brace? == some '\x7b').toNat + (token.isStray stack).toNat := by
  have hcons : (Bracket.curly :: stack).count .curly = stack.count .curly + 1 :=
    List.count_cons_self
  cases token with
  | opening b =>
    cases b with
    | curly => exact hcons
    | _ => rfl
  | closing b =>
    rcases stack with _ | ⟨a, stack⟩
    · cases b <;> rfl
    · cases a with
      | curly =>
        cases b with
        | curly => exact List.count_cons_self.symm
        | _ => rfl
      | _ => cases b <;> rfl
  | _ => rfl

/-- **The depth is what opened and what was stray, less what closed.** -/
theorem count_nestingOf_add (stack : List Bracket) (ls : List Lexeme) :
    (nestingOf stack ls).count .curly + braces '\x7d' ls =
      stack.count .curly + braces '\x7b' ls + strays stack ls := by
  induction ls generalizing stack with
  | nil => rfl
  | cons l ls ih =>
    have hstep := l.token.count_nesting stack
    have hrest := ih (l.token.nesting stack)
    rw [nestingOf_cons, strays, braces_cons, braces_cons]
    omega

theorem depth_add_closings (ls : List Lexeme) :
    depth ls + braces '\x7d' ls = braces '\x7b' ls + strays [] ls := by
  have h := count_nestingOf_add [] ls
  rwa [List.count_nil, Nat.zero_add] at h

/-- Whether braces nest: none closes before it was opened, and none stays open. -/
structure NestProperly (ls : List Lexeme) : Prop where
  front : ∀ front, front <+: ls → braces '\x7d' front ≤ braces '\x7b' front
  total : braces '\x7b' ls = braces '\x7d' ls

/-- Braces nest exactly if there are as many of both kinds and no stray one comes too early. -/
theorem nestProperly_iff (ls : List Lexeme) :
    NestProperly ls ↔ braces '\x7b' ls = braces '\x7d' ls ∧
      ∀ front, front <+: ls → strays [] front ≤ depth front := by
  have hfront : ∀ front : List Lexeme,
      braces '\x7d' front ≤ braces '\x7b' front ↔ strays [] front ≤ depth front := fun front => by
    have h := depth_add_closings front
    omega
  constructor
  · rintro ⟨hbefore, htotal⟩
    exact ⟨htotal, fun front h => (hfront front).mp (hbefore front h)⟩
  · rintro ⟨htotal, hbefore⟩
    exact ⟨fun front h => (hfront front).mpr (hbefore front h), htotal⟩

end StyleAudit.Css

namespace StyleAudit.Extract

open Css

/-! ## What the test of the braces guarantees -/

/-- What is known about the braces of a stylesheet that passes the tests. -/
structure AccountsForBraces (t : Text) : Prop where
  /-- The text has as many braces of both kinds. -/
  raw : t.count '\x7b' = t.count '\x7d'
  /-- Hidden braces make up for what the tokens lack. -/
  total : braces '\x7b' (lexemes t) + hidden '\x7b' (lexemes t) =
    braces '\x7d' (lexemes t) + hidden '\x7d' (lexemes t)
  /-- At every place, what is open is what opened and what was stray, less what closed. -/
  front : ∀ front, front <+: lexemes t →
    depth front + braces '\x7d' front = braces '\x7b' front + strays [] front
  /-- The tokens are as many of both kinds exactly if the hidden braces are. -/
  total_iff : braces '\x7b' (lexemes t) = braces '\x7d' (lexemes t) ↔
    hidden '\x7b' (lexemes t) = hidden '\x7d' (lexemes t)
  /-- The tokens nest exactly if the hidden braces balance and there are nowhere more stray braces
  than open blocks. -/
  nest_iff : NestProperly (lexemes t) ↔ hidden '\x7b' (lexemes t) = hidden '\x7d' (lexemes t) ∧
    ∀ front, front <+: lexemes t → strays [] front ≤ depth front
  /-- If the hidden braces balance, stray braces make up for blocks that are never closed. -/
  stray : hidden '\x7b' (lexemes t) = hidden '\x7d' (lexemes t) →
    strays [] (lexemes t) = depth (lexemes t)

/-- As many braces of both kinds in the text account for all of this. -/
theorem accountsForBraces_of_count {t : Text} (h : t.count '\x7b' = t.count '\x7d') :
    AccountsForBraces t := by
  have htext : ∀ c, t.count c = braces c (lexemes t) + hidden c (lexemes t) := fun c => by
    have hcount := count_sourceOf (fun l hl b => text_eq_of_brace? (t := t) hl) c
    rwa [sourceOf_lexemes] at hcount
  have htotal : braces '\x7b' (lexemes t) + hidden '\x7b' (lexemes t) =
      braces '\x7d' (lexemes t) + hidden '\x7d' (lexemes t) := by
    rw [← htext, ← htext, h]
  have hiff : braces '\x7b' (lexemes t) = braces '\x7d' (lexemes t) ↔
      hidden '\x7b' (lexemes t) = hidden '\x7d' (lexemes t) := by omega
  refine ⟨h, htotal, fun front _ => depth_add_closings front, hiff, ?_, fun hhidden => ?_⟩
  · rw [nestProperly_iff, hiff]
  · have hdepth := depth_add_closings (lexemes t)
    have htokens := hiff.mpr hhidden
    omega

/-- **The braces of a valid stylesheet.**  As many of both kinds are guaranteed in the text, hidden
ones included; the tokens nest under the conditions that `AccountsForBraces` tells. -/
theorem accountsForBraces_of_validate {bytes : List UInt8} {t : Text}
    (h : validate bytes = .ok t) : AccountsForBraces t := by
  obtain ⟨u, -, h⟩ := Outcomes.bind_eq_ok_iff.mp h
  obtain ⟨rules, hload, h⟩ := Outcomes.bind_eq_ok_iff.mp h
  obtain ⟨-, -, h⟩ := Outcomes.bind_eq_ok_iff.mp h
  obtain ⟨-, -, h⟩ := Outcomes.bind_eq_ok_iff.mp h
  obtain rfl := Except.ok.inj h
  exact accountsForBraces_of_count (loadSheet_eq_ok_iff.mp hload).1

/-- A block that is never closed, behind a closing brace in a comment. -/
def hiddenBrace : Text := "/* \x7d */ .a \x7b".toList

theorem validate_hiddenBrace : validate (Utf8.encode hiddenBrace) = .ok hiddenBrace := by
  rw [validate_encode]
  exact Outcomes.eq_ok_of_toOption (by decide +kernel)

/-- The brace in the comment makes up for the one that is missing. -/
theorem accountsForBraces_of_validate_hiddenBrace :
    validate (Utf8.encode hiddenBrace) = .ok hiddenBrace ∧
      braces '\x7b' (lexemes hiddenBrace) = 1 ∧ hidden '\x7d' (lexemes hiddenBrace) = 1 ∧
      ¬ NestProperly (lexemes hiddenBrace) := by
  have haccounts := accountsForBraces_of_validate validate_hiddenBrace
  refine ⟨validate_hiddenBrace, by decide +kernel, by decide +kernel, fun hnest => ?_⟩
  have hhidden := (haccounts.nest_iff.mp hnest).1
  revert hhidden
  decide +kernel

/-- The braces of a valid stylesheet need not nest. -/
theorem exists_unnested_valid :
    ¬ ∀ (bytes : List UInt8) (t : Text), validate bytes = .ok t → NestProperly (lexemes t) := by
  intro hall
  have htotal := (hall _ _ validate_hiddenBrace).total
  revert htotal
  decide +kernel

end StyleAudit.Extract
