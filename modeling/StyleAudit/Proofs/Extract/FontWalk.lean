import StyleAudit.Proofs.Extract.Depth
import StyleAudit.Proofs.Extract.ErrorLines
import StyleAudit.Proofs.Extract.FontBlocks
import StyleAudit.Proofs.Extract.Walk
import StyleAudit.Proofs.Outcomes

/-!
# The fonts of a stylesheet, read off its blocks

`fonts` goes through a stylesheet with two recursions, one over rules and one over the items of
blocks.  It stops at the first block with an issue, files the font declarations of a block as it
comes to it, and wraps a failure once for each at-rule in a block around the one that failed.  Up to
these wrappings it is a loop over the blocks in the order of their addresses (`addFonts_eq_foldlM`).

A loop over blocks can be read off.  It fails with the issue of the first block that has one
(`foldlM_fileBlock`), and otherwise the list that it leaves under a key is made of the font
declarations of the blocks with that key, block after block (`getElem?_foldl_fileUnder`).

* `fonts_eq_walk` --- when there is an answer, and what it holds;
* `validate_of_fonts` --- the validation looks at some of these blocks, so with an answer about
  fonts it has nothing to object but lines.
-/

namespace StyleAudit

/-- The failure inside all wrappings. -/
def Failure.innermost : Failure → Failure
  | .nested _ source => source.innermost
  | e => e

namespace Extract

open Css

/-! ## The walk as a loop over blocks -/

/-- Files the font declarations of a block, its own only, under the selectors on the way to it;
`outer` are those further out. -/
def fileBlock (outer : List Text) (found : FontTable) (b : Block) : Except Failure FontTable :=
  addOwnFonts (joinPath (outer ++ b.path)) (parseBlock b.body) found

/-- The loop over blocks that are seen from further out. -/
theorem foldlM_map_under (outer : List Text) (i : Nat) (selectors : List Text) (bs : List Block)
    (found : FontTable) :
    (bs.map (Block.under i selectors)).foldlM (fileBlock outer) found =
      bs.foldlM (fileBlock (outer ++ selectors)) found := by
  have hstep : (fun found b => fileBlock outer found (Block.under i selectors b)) =
      fileBlock (outer ++ selectors) := by
    funext found b
    rw [fileBlock, fileBlock, Block.under, List.append_assoc]
  rw [List.foldlM_map, hstep]

theorem foldlM_blocksOf (outer : List Text) (body : Text) (found : FontTable) :
    (blocksOf body).foldlM (fileBlock outer) found =
      (addOwnFonts (joinPath outer) (parseBlock body) found >>= fun found =>
        (numbered itemShare Item.selectors 0 (parseBlock body)).foldlM (fileBlock outer)
          found) := by
  rw [blocksOf, itemBlocks_eq_numbered, List.foldlM_cons, fileBlock, Block.here, List.append_nil]

/-- What the font declarations of a block fail with is wrapped in nothing. -/
theorem mapError_innermost_addOwnFonts (selector : Text) (items : List Item) (found : FontTable) :
    (addOwnFonts selector items found).mapError Failure.innermost =
      addOwnFonts selector items found := by
  unfold addOwnFonts
  split <;> rfl

/-- The walk over the items of a block, one item at a time and up to wrappings.  An item that is no
rule, or a rule without a block, changes nothing. -/
theorem addInnerFonts_cons {item : Item} (hitem : ∀ issue, item ≠ .rule (.error issue))
    (selector : Text) (items : List Item) (found : FontTable) :
    (addInnerFonts selector (item :: items) found).mapError Failure.innermost =
      ((match item.body? with
        | some body =>
          (blockFonts (item.selectors.foldl joinSelectors selector) body found).mapError
            Failure.innermost
        | none => .ok found) >>= fun found =>
          (addInnerFonts selector items found).mapError Failure.innermost) := by
  match item, hitem with
  | .declaration d, _ => rw [addInnerFonts]; rfl
  | .error issue, _ => rw [addInnerFonts]; rfl
  | .rule (.error issue), hitem => exact absurd rfl (hitem issue)
  | .rule (.qualified rule), _ =>
    rw [addInnerFonts]
    simp only [mapError_bind, Item.body?, Rule.body?, blockFonts, bind_assoc]
    rfl
  | .rule (.atRule rule), _ =>
    have hwrap : Failure.innermost ∘ Failure.nested ("@" ++ String.ofList rule.keyword) =
        Failure.innermost := rfl
    rw [addInnerFonts, mapError_bind, mapError_mapError, hwrap, blockItems]
    cases hbody : rule.body with
    | none =>
      -- an at-rule without a block is read as one whose block has no items
      have hnone : addOwnFonts selector [] found >>= addInnerFonts selector [] = .ok found := by
        show addInnerFonts selector [] found = _
        rw [addInnerFonts]
      simp only [Item.body?, Rule.body?, hbody, hnone]
      rfl
    | some body =>
      simp only [Item.body?, Rule.body?, hbody]
      rfl

/-- The walk over the items of a block is a loop over the blocks in them, if the walk over each of
these blocks is. -/
theorem addInnerFonts_eq_foldlM {items : List Item} {outer : List Text}
    (houter : ∀ s ∈ outer, s.trim = s)
    (hitems : ∀ issue, Item.rule (.error issue) ∉ items)
    (htrimmed : ∀ item ∈ items, ∀ s ∈ item.selectors, s.trim = s)
    (hinner : ∀ item ∈ items, ∀ body, item.body? = some body → ∀ (outer : List Text) found,
      (∀ s ∈ outer, s.trim = s) →
      (blockFonts (joinPath outer) body found).mapError Failure.innermost =
        (blocksOf body).foldlM (fileBlock outer) found)
    (i : Nat) (found : FontTable) :
    (addInnerFonts (joinPath outer) items found).mapError Failure.innermost =
      (numbered itemShare Item.selectors i items).foldlM (fileBlock outer) found := by
  induction items generalizing i found with
  | nil => rw [addInnerFonts]; rfl
  | cons item items ih =>
    obtain ⟨hsome, htrimmed⟩ := List.forall_mem_cons.mp htrimmed
    obtain ⟨hhere, hinner⟩ := List.forall_mem_cons.mp hinner
    have ih := ih (fun issue hi => hitems issue (List.mem_cons_of_mem item hi)) htrimmed hinner
    have hnot : ∀ issue, item ≠ .rule (.error issue) := by
      rintro issue rfl
      exact hitems issue List.mem_cons_self
    have hlonger : ∀ s ∈ outer ++ item.selectors, s.trim = s := by
      intro s hs
      rcases List.mem_append.mp hs with hs | hs
      · exact houter s hs
      · exact hsome s hs
    rw [addInnerFonts_cons hnot, foldl_joinSelectors_joinPath houter hsome, numbered_cons,
      List.foldlM_append, foldlM_map_under, itemShare]
    cases hbody : item.body? with
    | none => simp only [ih (i + 1)]; rfl
    | some body => simp only [hhere body hbody _ found hlonger, ih (i + 1)]; rfl

/-- **The walk over a block is a loop over the block and those inside it.** -/
theorem blockFonts_eq_foldlM (body : Text) {outer : List Text} (houter : ∀ s ∈ outer, s.trim = s)
    (found : FontTable) :
    (blockFonts (joinPath outer) body found).mapError Failure.innermost =
      (blocksOf body).foldlM (fileBlock outer) found := by
  induction body using block_induction generalizing outer found with
  | h body ih =>
    rw [foldlM_blocksOf, blockFonts, mapError_bind, mapError_innermost_addOwnFonts]
    congr 1
    funext found
    exact addInnerFonts_eq_foldlM houter (error_notMem_parseBlock body)
      (fun item hitem => trim_selectors_of_mem_parseBlock hitem)
      (fun item hitem inner hinner outer found houter => ih item hitem inner hinner houter found)
      0 found

/-- The walk over the rules of a stylesheet is a loop over the blocks in them, if the walk over the
inside of each at-rule is. -/
theorem addFonts_eq_foldlM_numbered {rules : List Rule}
    (htrimmed : ∀ rule, Rule.qualified rule ∈ rules → rule.selector.trim = rule.selector)
    (hinner : ∀ rule, Rule.atRule rule ∈ rules → ∀ body, rule.body = some body → ∀ found,
      (addFonts (parseStylesheet body) found).mapError Failure.innermost =
        (sheetBlocks body).foldlM (fileBlock []) found)
    (i : Nat) (found : FontTable) :
    (addFonts rules found).mapError Failure.innermost =
      (numbered ruleShare Rule.selectors i rules).foldlM (fileBlock []) found := by
  induction rules generalizing i found with
  | nil => rw [addFonts]; rfl
  | cons rule rules ih =>
    have ih := ih (fun r hr => htrimmed r (List.mem_cons_of_mem rule hr))
      (fun r hr => hinner r (List.mem_cons_of_mem rule hr)) (i + 1)
    rw [numbered_cons, List.foldlM_append, foldlM_map_under]
    cases rule with
    | error issue => rw [addFonts, ih]; rfl
    | atRule rule =>
      have hinner := hinner rule List.mem_cons_self
      rw [addFonts, mapError_bind, AtRule.rules, ruleShare]
      cases hbody : rule.body with
      | none => rw [addFonts]; simp only [ih]; rfl
      | some body => simp only [hinner body hbody, ih]; rfl
    | qualified rule =>
      have htrim : ∀ s ∈ [rule.selector], s.trim = s := by
        simpa using htrimmed rule List.mem_cons_self
      have hnil : ∀ s ∈ ([] : List Text), s.trim = s := fun _ hs => absurd hs List.not_mem_nil
      have hkey : joinPath [rule.selector] = rule.selector :=
        (joinSelectors_joinPath hnil (htrim _ List.mem_cons_self)).symm
      have hblock := blockFonts_eq_foldlM rule.body htrim
      simp only [hkey] at hblock
      rw [addFonts, ruleShare, Rule.selectors, List.nil_append, ← hblock, blockFonts]
      simp only [QualifiedRule.items, mapError_bind, bind_assoc, ih]

/-- **The walk over a stylesheet is a loop over its blocks.** -/
theorem addFonts_eq_foldlM (t : Text) (found : FontTable) :
    (addFonts (parseStylesheet t) found).mapError Failure.innermost =
      (sheetBlocks t).foldlM (fileBlock []) found := by
  induction t using sheet_induction generalizing found with
  | h t ih =>
    rw [sheetBlocks, ruleBlocks_eq_numbered]
    exact addFonts_eq_foldlM_numbered (fun rule => trim_selector_of_mem_parseStylesheet)
      (fun rule hrule body hbody found => ih _ hrule body hbody found) 0 found

/-! ## What the loop leaves -/

namespace Block

/-- The selectors on the way to the block, joined. -/
def key (b : Block) : Text := joinPath b.path

/-- The font declarations of the block, those of blocks inside it left out. -/
def fonts (b : Block) : List FontDeclaration := ownFonts (parseBlock b.body)

/-- The first issue of the block. -/
def issue? (b : Block) : Option Issue := Item.firstIssue? (parseBlock b.body)

end Block

/-- Files the font declarations of a block that has no issue. -/
def fileOwn : FontTable → Block → FontTable := fileUnder Block.key Block.fonts

/-- **The loop fails with the issue of the first block that has one.** -/
theorem foldlM_fileBlock (bs : List Block) (found : FontTable) :
    bs.foldlM (fileBlock []) found =
      match bs.findSome? Block.issue? with
      | some issue => .error ((Failure.ofIssue issue).inContext "in declaration")
      | none => .ok (bs.foldl fileOwn found) := by
  let fails? (b : Block) : Option Failure :=
    b.issue?.map fun issue => (Failure.ofIssue issue).inContext "in declaration"
  have hstep : ∀ (found : FontTable) (b : Block),
      fileBlock [] found b = (fails? b).elim (.ok (fileOwn found b)) .error := by
    intro found b
    simp only [fileBlock, List.nil_append, addOwnFonts, fails?, Block.issue?]
    cases Item.firstIssue? (parseBlock b.body) <;> rfl
  have hfails : bs.findSome? fails? = (bs.findSome? Block.issue?).map fun issue =>
      (Failure.ofIssue issue).inContext "in declaration" := List.map_findSome?.symm
  rw [Outcomes.foldlM_eq_foldl hstep, hfails]
  cases bs.findSome? Block.issue? <;> rfl

/-! ## The fonts of a stylesheet -/

theorem fonts_eq (bytes : List UInt8) :
    fonts bytes = readSheet bytes >>= fun rules => addFonts rules ∅ := rfl

/-- The answer about a sheet that is not refused. -/
theorem fonts_eq_ok_iff {bytes : List UInt8} {t : Text} {rules : List Rule}
    (hbytes : Utf8.decode bytes = .ok t) (h : loadSheet t = .ok rules) {table : FontTable} :
    fonts bytes = .ok table ↔
      (sheetBlocks t).findSome? Block.issue? = none ∧
        (sheetBlocks t).foldl fileOwn ∅ = table := by
  have hrules := (loadSheet_eq_ok_iff.mp h).2.2
  have hread : fonts bytes = addFonts (parseStylesheet t) ∅ := by
    rw [fonts_eq, readSheet, decodeSheet_eq_ok_iff.mpr hbytes, hrules]
    show loadSheet t >>= _ = _
    rw [h]
    rfl
  rw [hread, ← Outcomes.mapError_eq_ok_iff (g := Failure.innermost), addFonts_eq_foldlM, foldlM_fileBlock]
  cases (sheetBlocks t).findSome? Block.issue? with
  | some issue => simp
  | none => simp

theorem issue?_eq_none_iff {b : Block} :
    b.issue? = none ↔ ∀ issue, Item.error issue ∉ parseBlock b.body :=
  firstItemIssue?_eq_none_iff

/-- **The fonts of a stylesheet, read off its blocks.**  There is an answer exactly if no block that
is reached has an item that cannot be read.  The blocks that are reached can be listed, each once,
in the order of their addresses.  Then the keys of the answer are the joined selectors of the blocks
that have a font declaration of their own, and under each stand the font declarations of all blocks
with these selectors, in the order of that list. -/
theorem fonts_eq_walk {t : Text} {rules : List Rule} (h : loadSheet t = .ok rules) :
    ((∃ table, fonts (Utf8.encode t) = .ok table) ↔
      ∀ b, ReachedInSheet t b → ∀ issue, Item.error issue ∉ parseBlock b.body) ∧
    (∀ b, b ∈ sheetBlocks t ↔ ReachedInSheet t b) ∧
    ((sheetBlocks t).Pairwise fun b c => b.address < c.address) ∧
    ∀ table, fonts (Utf8.encode t) = .ok table → ∀ s,
      (s ∈ table ↔ ∃ b, ReachedInSheet t b ∧ b.key = s ∧ b.fonts ≠ []) ∧
      table.getD s [] = ((sheetBlocks t).filter (·.key == s)).flatMap Block.fonts := by
  have hfonts := @fonts_eq_ok_iff _ _ _ (Utf8.decode_encode t) h
  refine ⟨?_, fun b => mem_sheetBlocks_iff, pairwise_sheetBlocks t, fun table htable s => ?_⟩
  · simp only [hfonts, exists_and_left, exists_eq', and_true,
      List.findSome?_eq_none_iff, mem_sheetBlocks_iff, issue?_eq_none_iff]
  · obtain ⟨-, rfl⟩ := hfonts.mp htable
    have hget := getElem?_foldl_fileUnder Block.key Block.fonts s (sheetBlocks t) ∅
    have hreached : (∃ b, ReachedInSheet t b ∧ b.key = s ∧ b.fonts ≠ []) ↔
        ((sheetBlocks t).filter (·.key == s)).flatMap Block.fonts ≠ [] := by
      simp only [Ne, List.flatMap_eq_nil_iff, List.mem_filter, mem_sheetBlocks_iff, beq_iff_eq,
        not_forall, exists_prop, and_assoc]
    rw [hreached, Std.TreeMap.mem_iff_isSome_getElem?, Std.TreeMap.getD_eq_getD_getElem?,
      fileOwn, hget]
    split
    next hnone => simp [hnone]
    next hsome => simp [hsome]

/-- A class whose fonts are set in four blocks: its own, that of a rule inside it, and those of a
condition and of another rule for it. -/
def fourFontBlocks : Text :=
  "@media x\x7b.a\x7bfont-size:1px;.b\x7bfont:x\x7d@media p\x7bfont-size:2px\x7d".toList ++
    "line-height:1\x7d\x7d.a\x7bfont-weight:700\x7d".toList

/-- The declarations of the class are listed, its own in front of those of the condition. -/
theorem fonts_eq_walk_fourFontBlocks :
    loadSheet fourFontBlocks = .ok (parseStylesheet fourFontBlocks) ∧
      ∃ table, fonts (Utf8.encode fourFontBlocks) = .ok table ∧
        (table.getD ".a".toList []).map FontDeclaration.value =
          ["1px".toList, "1".toList, "2px".toList, "700".toList] ∧
        (table.getD ".a .b".toList []).map FontDeclaration.value = ["x".toList] := by
  have hload : loadSheet fourFontBlocks = .ok (parseStylesheet fourFontBlocks) :=
    loadSheet_eq_ok_iff.mpr ⟨by decide +kernel, by decide +kernel, rfl⟩
  obtain ⟨hanswer, hblocks, -, hwalk⟩ := fonts_eq_walk hload
  have hsound : ∀ b ∈ sheetBlocks fourFontBlocks, b.issue? = none := by decide +kernel
  obtain ⟨table, htable⟩ := hanswer.mpr fun b hb =>
    issue?_eq_none_iff.mp (hsound b ((hblocks b).mpr hb))
  refine ⟨hload, table, htable, ?_, ?_⟩
  · rw [(hwalk table htable _).2]
    decide +kernel
  · rw [(hwalk table htable _).2]
    decide +kernel

/-! ## Against the validation -/

/-- What the validation cannot read in a declaration is an issue of a block that is reached. -/
theorem exists_reached_of_validate {bytes : List UInt8} {message : String} {line column : Nat}
    (h : validate bytes = .error (.parse (some "in declaration") message line column)) :
    ∃ t rules, Utf8.decode bytes = .ok t ∧ readSheet bytes = .ok rules ∧
      loadSheet t = .ok rules ∧ ∃ b issue, ReachedInSheet t b ∧ b.issue? = some issue := by
  cases hread : readSheet bytes with
  | error e =>
    have hfail : AllFail bytes [] [] e := allFail_of_readSheet hread
    rw [hfail.validate] at h
    cases h
    cases readSheet_eq_error_iff.mp hread
  | ok rules =>
    obtain ⟨t, hbytes, hload⟩ := exists_decode_of_readSheet hread
    rw [validate_of_loadSheet hbytes hload] at h
    rcases bind_eq_error.mp h with h | ⟨-, -, h⟩
    · obtain ⟨before, rule, after, hsplit, -, hrule⟩ := exists_split_of_forM_eq_error h
      obtain ⟨q, issue, rfl, hissue, -⟩ := exists_issue_of_checkRule hrule
      have hq : (parseStylesheet t)[before.length]? = some (.qualified q) := by
        rw [(loadSheet_eq_ok_iff.mp hload).2.2, hsplit]
        simp
      exact ⟨t, rules, hbytes, rfl, hload, _, issue, .rule hq (.here q.body), hissue⟩
    · rcases bind_eq_error.mp h with h | ⟨-, -, h⟩
      · unfold checkSheetLines at h
        split at h <;> cases h
      · cases h

/-- What the validation cannot read in a declaration fails the question about fonts. -/
theorem exists_fonts_eq_error {bytes : List UInt8} {message : String} {line column : Nat}
    (h : validate bytes = .error (.parse (some "in declaration") message line column)) :
    ∃ e, fonts bytes = .error e ∧ InDeclaration e := by
  obtain ⟨t, rules, hbytes, hread, hload, b, issue, hb, hissue⟩ := exists_reached_of_validate h
  cases hfonts : fonts bytes with
  | error e => exact ⟨e, rfl, (answered_of_readSheet [] [] hread).fonts e hfonts⟩
  | ok table =>
    have hnone := ((fonts_eq_ok_iff hbytes hload).mp hfonts).1
    have hsound := List.findSome?_eq_none_iff.mp hnone b (mem_sheetBlocks_iff.mpr hb)
    rw [hissue] at hsound
    cases hsound

/-- **With an answer about fonts, the validation has nothing to object but lines.**  It looks at the
blocks of the rules at the top level, and those are among the blocks that are reached.  So what it
cannot read in a declaration fails the question about fonts as well, though it may be at another
block; and if that question has an answer, a text is valid or lacks a semicolon. -/
theorem validate_of_fonts (bytes : List UInt8) :
    (∀ table, fonts bytes = .ok table → ∃ t, Utf8.decode bytes = .ok t ∧
      (validate bytes = .ok t ∨
        ∃ line number, validate bytes = .error (.missingSemicolon line number))) ∧
    ∀ message line column,
      validate bytes = .error (.parse (some "in declaration") message line column) →
        ∃ e, fonts bytes = .error e ∧ InDeclaration e := by
  refine ⟨fun table htable => ?_, fun _ _ _ => exists_fonts_eq_error⟩
  cases hread : readSheet bytes with
  | error e =>
    have hfail : AllFail bytes [] [] e := allFail_of_readSheet hread
    rw [hfail.fonts] at htable
    cases htable
  | ok rules =>
    obtain ⟨t, hbytes, hload⟩ := exists_decode_of_readSheet hread
    refine ⟨t, hbytes, ?_⟩
    cases hvalidate : validate bytes with
    | ok u =>
      rw [validate_of_loadSheet hbytes hload] at hvalidate
      obtain ⟨-, -, h⟩ := Outcomes.bind_eq_ok_iff.mp hvalidate
      obtain ⟨-, -, h⟩ := Outcomes.bind_eq_ok_iff.mp h
      cases h
      exact .inl rfl
    | error e =>
      right
      cases (answered_of_readSheet [] [] hread).validate e hvalidate with
      | parse message line column =>
        obtain ⟨e, he, -⟩ := exists_fonts_eq_error hvalidate
        rw [he] at htable
        cases htable
      | missingSemicolon line number => exact ⟨line, number, rfl⟩

/-- Two blocks that cannot be read, the first of them under a condition. -/
def twoUnreadable : Text := "@media x\x7b.p\x7bq r\x7d\x7d.a\x7bb c\x7d".toList

/-- A sheet with fonts is as the validation wants it, up to lines; and the block that the
validation cannot read fails the question about fonts. -/
theorem validate_of_fonts_twoUnreadable :
    (∃ table, fonts (Utf8.encode fourFontBlocks) = .ok table) ∧
      (∃ t, Utf8.decode (Utf8.encode fourFontBlocks) = .ok t ∧
        (validate (Utf8.encode fourFontBlocks) = .ok t ∨ ∃ line number,
          validate (Utf8.encode fourFontBlocks) = .error (.missingSemicolon line number))) ∧
      (∃ message, validate (Utf8.encode twoUnreadable) =
        .error (.parse (some "in declaration") message 1 2)) ∧
      ∃ e, fonts (Utf8.encode twoUnreadable) = .error e ∧ InDeclaration e := by
  have hload : loadSheet fourFontBlocks = .ok (parseStylesheet fourFontBlocks) :=
    loadSheet_eq_ok_iff.mpr ⟨by decide +kernel, by decide +kernel, rfl⟩
  have hfonts := (fonts_eq_ok_iff (Utf8.decode_encode fourFontBlocks) hload).mpr
    ⟨by decide +kernel, rfl⟩
  let media : AtRule := ⟨"media".toList, ['x'], some ".p\x7bq r\x7d".toList, 1⟩
  let rule : QualifiedRule := ⟨".a".toList, "b c".toList, 1, 1⟩
  let issue : Issue := ⟨.unexpectedToken (.ident ['c']), 1, 2⟩
  have hrules : loadSheet twoUnreadable = .ok [.atRule media, .qualified rule] :=
    loadSheet_eq_ok_iff.mpr ⟨by decide, by decide +kernel, by decide +kernel⟩
  have hitems : Item.firstIssue? rule.items = some issue := by decide +kernel
  have hrule : checkRule (.qualified rule) =
      .error (.parse (some "in declaration") issue.fault.message 1 2) := by
    simp only [checkRule, checkItems, hitems]
    rfl
  have hvalidate : validate (Utf8.encode twoUnreadable) =
      .error (.parse (some "in declaration") issue.fault.message 1 2) := by
    rw [validate_encode, validateText, hrules]
    exact bind_eq_error.mpr (.inr ⟨_, rfl, bind_eq_error.mpr (.inl (bind_eq_error.mpr
      (.inr ⟨(), rfl, bind_eq_error.mpr (.inl hrule)⟩)))⟩)
  exact ⟨⟨_, hfonts⟩, (validate_of_fonts _).1 _ hfonts, ⟨_, hvalidate⟩,
    (validate_of_fonts _).2 _ _ _ hvalidate⟩

end Extract
end StyleAudit
