import StyleAudit.Proofs.Files.Components
import StyleAudit.Proofs.Files.Spelling
import StyleAudit.Proofs.Text.Trim

/-!
# Patterns for directories

A pattern that ends in a slash is meant for what is below a directory.  For a version control
system the directory may be anywhere, unless there is a slash in front of its name: then it is at
the top.

Here the slash at the end becomes `/**`, and what comes out is matched against the text of the path
from its beginning.  The stars match everything, so the path is matched if its text begins with the
pattern (`compiledMatches_below`).  For `d/` this is what a version control system has for `/d/`.
And `/d/` itself keeps its slash in front, which no relative path has there, so it matches none: of
all patterns that begin with a slash only those that do not end in one lose it.

The main result is `readsDirectory`; where this is not what one expects is
`exists_directory_missed`.
-/

namespace StyleAudit

/-! ## Beginnings -/

namespace Glob

/-- Behind slashes, and at the end, is a place where nothing is left to match. -/
theorem behindSlashes_run_nil (t : Text) : behindSlashes (run []) t = .matched := by
  induction t with
  | nil => rfl
  | cons c t ih =>
    rw [behindSlashes]
    split
    · cases t with
      | nil => rfl
      | cons d t => exact ih
    · exact ih

/-- `**` alone matches everything. -/
theorem run_directories (t : Text) : run [.directories] t = .matched := by
  cases t with
  | nil => rfl
  | cons c t => exact behindSlashes_run_nil (c :: t)

/-- A text with `**` behind it matches what begins with the text. -/
theorem isMatch_literals_directories (s t : Text) :
    isMatch (s.map .literal ++ [.directories]) t = true ↔ s <+: t := by
  rw [isMatch, beq_iff_eq]
  induction s generalizing t with
  | nil => exact iff_of_true (run_directories t) List.nil_prefix
  | cons c s ih =>
    rw [List.map_cons, List.cons_append]
    cases t with
    | nil => exact iff_of_false (by simp [run]) (by simp)
    | cons d t =>
      rw [List.cons_prefix_cons, ← ih t]
      show (if (d == c) = true then _ else Verdict.mismatch) = .matched ↔ _
      by_cases hd : d = c
      · simp [hd]
      · simp [hd, Ne.symm hd]

/-- A text without wildcards in which every character stands for itself. -/
def IsLiteral (s : Text) : Prop := ∀ c ∈ s, c ≠ '*' ∧ c ≠ '?' ∧ c ≠ '['

instance (s : Text) : Decidable (IsLiteral s) := inferInstanceAs (Decidable (∀ c ∈ s, _))

theorem IsLiteral.isPlain {s : Text} (h : IsLiteral s) : IsPlain s where
  noBracket hmem := (h _ hmem).2.2 rfl
  noStars hstars := (h _ (hstars.subset List.mem_cons_self)).1 rfl

/-- A pattern for everything below a directory is compiled to its text and `**`. -/
theorem IsLiteral.compileFrom {s : Text} (h : IsLiteral s) :
    ∀ (position : Nat) (before : Option Char) (tokens : List Token),
      Glob.compileFrom position before tokens (s ++ "/**".toList) =
        .ok (tokens.reverse ++ ((s ++ ['/']).map .literal ++ [.directories])) := by
  induction s with
  | nil =>
    intro position before tokens
    show Glob.compileFrom position before tokens ['/', '*', '*'] = _
    rw [compileFrom_of_char (by decide) (by decide), compileFrom_of_lastStars (.inr rfl)]
    simp [addDirectories]
  | cons c s ih =>
    intro position before tokens
    obtain ⟨⟨hstar, hany, hbracket⟩, hs⟩ := List.forall_mem_cons.mp h
    rw [List.cons_append, compileFrom_of_char hstar hbracket, ih hs, if_neg hany]
    simp

end Glob

namespace FilterPattern

/-- **What is below a directory begins with its name and a slash.** -/
theorem compiledMatches_below {s : Text} (hs : Glob.IsLiteral s) (t : Text) :
    compiledMatches (s ++ "/**".toList) t = true ↔ s ++ ['/'] <+: t := by
  have hcompile : Glob.compile (s ++ "/**".toList) =
      .ok ((s ++ ['/']).map .literal ++ [.directories]) := hs.compileFrom 0 none []
  rw [compiledMatches_of_compile hcompile]
  exact Glob.isMatch_literals_directories _ t

/-- A pattern that ends in one slash is matched against the beginning of the text. -/
theorem appliesTo_of_endsIn {f : FilterPattern} {s : Text} (hs : Glob.IsLiteral s)
    (hlast : ∀ c ∈ s.getLast?, (c == '/') = false) (hf : f.text = s ++ ['/']) (p : Path) :
    f.appliesTo p = true ↔ s ++ ['/'] <+: p.text := by
  have hend : f.text.endsIn '/' = true := by
    rw [hf, Text.endsIn, List.getLast?_concat]
    rfl
  have hdrop : f.text.dropEndWhile (· == '/') = s := by
    rw [hf, Text.dropEndWhile_concat_of_pos rfl, Text.dropEndWhile_of_getLast? hlast]
  rw [appliesTo_of_endsIn_slash hend, hdrop]
  exact compiledMatches_below hs p.text

end FilterPattern

/-! ## Directories at the top -/

namespace Path

variable {p : Path} {d t : Text} {ts : List Text}

/-- A text begins with a name and a slash if the first stretch is that name and not the last. -/
theorem concat_prefix_iff (hd : '/' ∉ d) (hsplit : Text.splitOn '/' p.text = t :: ts) :
    d ++ ['/'] <+: p.text ↔ t = d ∧ ts ≠ [] := by
  constructor
  · rintro ⟨v, hv⟩
    rw [List.append_assoc, List.singleton_append] at hv
    rw [← hv, Text.splitOn_append_cons hd] at hsplit
    obtain ⟨rfl, rfl⟩ := List.cons.inj hsplit
    exact ⟨rfl, Text.splitOn_ne_nil '/' v⟩
  · rintro ⟨rfl, hne⟩
    have hjoin := Text.joinWith_splitOn '/' p.text
    rw [hsplit, Text.joinWith.eq_3 _ _ _ hne] at hjoin
    exact ⟨Text.joinWith '/' ts, by rw [← hjoin, List.append_assoc, List.singleton_append]⟩

theorem text_eq_iff (hsplit : Text.splitOn '/' p.text = t :: ts) : p.text = t ↔ ts = [] := by
  constructor
  · intro htext
    have ht : '/' ∉ t := Text.not_mem_of_mem_splitOn (hsplit ▸ List.mem_cons_self)
    rw [htext, Text.splitOn_of_notMem ht] at hsplit
    exact (List.cons.inj hsplit).2.symm
  · rintro rfl
    rw [← Text.joinWith_splitOn '/' p.text, hsplit, Text.joinWith]

/-- The first part of a path that is made of names is its first stretch. -/
theorem IsNormal.head?_parts (hp : p.IsNormal) (hsplit : Text.splitOn '/' p.text = t :: ts) :
    p.parts.head? = some (.name t) := by
  obtain ⟨t', ts', hsplit', hempty, hdot⟩ := hp.exists_pieces_eq
  obtain ⟨rfl, rfl⟩ := List.cons.inj (hsplit.symm.trans hsplit')
  have hparts : ∀ part, (Piece.ofText t).part? = some part → p.parts.head? = some part := by
    intro part hpart
    rw [parts, hp.relative, hp.pieces_eq, hsplit, List.map_cons, List.filterMap_cons, hpart]
    rfl
  have hpart : (Piece.ofText t).part? =
      if t = ['.', '.'] then some .parent else some (.name t) := by
    rw [Piece.ofText, if_neg (not_or.mpr ⟨hempty, hdot⟩)]
  by_cases hparent : t = ['.', '.']
  · rw [if_pos hparent] at hpart
    obtain ⟨n, hn⟩ := hp.named .parent (List.mem_of_mem_head? (hparts _ hpart))
    cases hn
  · rw [if_neg hparent] at hpart
    exact hparts _ hpart

/-- A path that is a name has no other part. -/
theorem IsNormal.parts_eq_singleton (hp : p.IsNormal) (hd : '/' ∉ d) (htext : p.text = d) :
    p.parts = [.name d] := by
  have hsplit : Text.splitOn '/' p.text = [d] := by rw [htext, Text.splitOn_of_notMem hd]
  obtain ⟨rest, hparts⟩ := List.head?_eq_some_iff.mp (hp.head?_parts hsplit)
  have hlength : p.parts.length ≤ 1 := by
    rw [parts, hp.relative, hp.pieces_eq, hsplit]
    exact List.length_filterMap_le _ _
  rw [hparts, List.length_cons] at hlength
  have hrest : rest = [] := List.eq_nil_of_length_eq_zero (by omega)
  rw [hparts, hrest]

/-- A path that is written plainly is made of names. -/
theorem IsPlainlyWritten.isNormal (h : p.IsPlainlyWritten) : p.IsNormal :=
  .of_parts _ (Text.splitOn_ne_nil '/' p.text) h

/-- The path lies in a directory of that name, at whatever depth.  This is what `d/` means to a
version control system. -/
def LiesIn (p : Path) (d : Text) : Prop := .name d ∈ p.parts.dropLast

instance (p : Path) (d : Text) : Decidable (p.LiesIn d) := inferInstanceAs (Decidable (_ ∈ _))

/-- The first directory on the path has that name.  This is what `/d/` means to a version control
system. -/
def LiesInFirst (p : Path) (d : Text) : Prop :=
  2 ≤ p.parts.length ∧ p.parts.head? = some (.name d)

instance (p : Path) (d : Text) : Decidable (p.LiesInFirst d) :=
  inferInstanceAs (Decidable (_ ∧ _))

/-- A path that begins with a name lies in a directory of that name unless there is nothing more. -/
theorem liesIn_iff_of_head? (hhead : p.parts.head? = some (.name d)) :
    p.LiesIn d ↔ p.parts ≠ [.name d] := by
  obtain ⟨rest, hparts⟩ := List.head?_eq_some_iff.mp hhead
  rw [LiesIn, hparts]
  cases rest with
  | nil => simp
  | cons part rest => simp [List.dropLast_cons_of_ne_nil]

end Path

/-! ## Reading patterns for directories -/

namespace FilterPattern

/-- The name of a directory in which every character stands for itself in a pattern. -/
structure IsDirectoryName (d : Text) : Prop where
  ne_nil : d ≠ []
  noSlash : '/' ∉ d
  literal : Glob.IsLiteral d

/-- How the patterns are read that a name of a directory makes with a slash behind it. -/
structure ReadsDirectory (d : Text) : Prop where
  /-- Both are patterns, with `!` in front or without. -/
  accepted : ∀ (includes : Bool) (t : Text), t = d ++ ['/'] ∨ t = '/' :: d ++ ['/'] →
    includes = true ∨ t.head? ≠ some '!' →
    ∃ f, parse ((if includes then ['!'] else []) ++ t) = .ok f ∧ f.text = t ∧
      f.includes = includes
  /-- Without a slash in front, the name has to be the first on the path, and not all of it. -/
  applies_iff : ∀ f : FilterPattern, f.text = d ++ ['/'] → ∀ p : Path, p.IsNormal →
    (f.appliesTo p = true ↔ p.parts.head? = some (.name d) ∧ p.text ≠ d)
  /-- So it is read as it should be with a slash in front. -/
  first_iff : ∀ f : FilterPattern, f.text = d ++ ['/'] → ∀ p : Path, p.IsPlainlyWritten →
    (f.appliesTo p = true ↔ p.LiesInFirst d)
  /-- It is read as it should be where the directory stands first on the path or nowhere, but for
  paths that are the name with slashes behind it. -/
  expected_iff : ∀ f : FilterPattern, f.text = d ++ ['/'] → ∀ p : Path, p.IsNormal →
    ((f.appliesTo p = true ↔ p.LiesIn d) ↔
      (p.LiesIn d → p.parts.head? = some (.name d)) ∧ (p.parts = [.name d] → p.text = d))
  /-- With a slash in front, it matches no relative path. -/
  none_applies : ∀ f : FilterPattern, f.text = '/' :: d ++ ['/'] → ∀ p : Path,
    p.isAbsolute = false → f.appliesTo p = false

section Names

variable {d : Text}

theorem parse_of_compile {includes : Bool} {t : Text} {g : Glob.Pattern}
    (h : includes = true ∨ t.head? ≠ some '!') (hg : Glob.compile t = .ok g) :
    parse ((if includes then ['!'] else []) ++ t) = .ok ⟨t, g, includes⟩ := by
  cases includes with
  | true =>
    show (Glob.compile t).map _ = _
    rw [hg]
    rfl
  | false =>
    have hhead : t.head? ≠ some '!' := h.resolve_left Bool.false_ne_true
    show parse t = _
    rw [parse.eq_2 _ fun u hu => hhead (by rw [hu]; rfl), hg]
    rfl

theorem IsDirectoryName.isLiteral_cons (hd : IsDirectoryName d) : Glob.IsLiteral ('/' :: d) :=
  List.forall_mem_cons.mpr ⟨by decide, hd.literal⟩

theorem IsDirectoryName.getLast?_ne (hd : IsDirectoryName d) :
    ∀ c ∈ d.getLast?, (c == '/') = false := by
  intro c hc
  rw [beq_eq_false_iff_ne]
  rintro rfl
  exact hd.noSlash (List.mem_of_mem_getLast? hc)

/-- **Which paths a pattern for a directory matches**: those on which the name stands first, with
something behind it. -/
theorem IsDirectoryName.appliesTo_iff (hd : IsDirectoryName d) {f : FilterPattern}
    (hf : f.text = d ++ ['/']) {p : Path} {t : Text} {ts : List Text}
    (hsplit : Text.splitOn '/' p.text = t :: ts) :
    f.appliesTo p = true ↔ t = d ∧ ts ≠ [] := by
  rw [appliesTo_of_endsIn hd.literal hd.getLast?_ne hf, Path.concat_prefix_iff hd.noSlash hsplit]

theorem IsDirectoryName.appliesTo_iff_head (hd : IsDirectoryName d) {f : FilterPattern}
    (hf : f.text = d ++ ['/']) {p : Path} (hp : p.IsNormal) :
    f.appliesTo p = true ↔ p.parts.head? = some (.name d) ∧ p.text ≠ d := by
  obtain ⟨t, ts, hsplit⟩ := List.exists_cons_of_ne_nil (Text.splitOn_ne_nil '/' p.text)
  rw [hd.appliesTo_iff hf hsplit, hp.head?_parts hsplit, Option.some.injEq, Path.Part.name.injEq]
  refine and_congr_right fun heq => not_congr ?_
  rw [← heq, Path.text_eq_iff hsplit]

theorem IsDirectoryName.appliesTo_iff_first (hd : IsDirectoryName d) {f : FilterPattern}
    (hf : f.text = d ++ ['/']) {p : Path} (hp : p.IsPlainlyWritten) :
    f.appliesTo p = true ↔ p.LiesInFirst d := by
  obtain ⟨t, ts, hsplit⟩ := List.exists_cons_of_ne_nil (Text.splitOn_ne_nil '/' p.text)
  have hlength : 2 ≤ p.parts.length ↔ ts ≠ [] := by
    rw [hp, hsplit, List.length_map, List.length_cons, ← List.length_pos_iff]
    omega
  rw [hd.appliesTo_iff hf hsplit, Path.LiesInFirst, hlength, hp.isNormal.head?_parts hsplit,
    Option.some.injEq, Path.Part.name.injEq, and_comm]

theorem IsDirectoryName.appliesTo_iff_liesIn (hd : IsDirectoryName d) {f : FilterPattern}
    (hf : f.text = d ++ ['/']) {p : Path} (hp : p.IsNormal) :
    (f.appliesTo p = true ↔ p.LiesIn d) ↔
      (p.LiesIn d → p.parts.head? = some (.name d)) ∧ (p.parts = [.name d] → p.text = d) := by
  rw [hd.appliesTo_iff_head hf hp]
  by_cases hhead : p.parts.head? = some (.name d)
  · -- Then the two readings differ only if the path is the directory itself.
    have halone : p.text = d → p.parts = [.name d] := hp.parts_eq_singleton hd.noSlash
    rw [Path.liesIn_iff_of_head? hhead]
    simp only [hhead, true_and, implies_true]
    constructor
    · exact fun hsame hparts => by_contra fun htext => hsame.mp htext hparts
    · exact fun hspelled => not_congr ⟨halone, hspelled⟩
  · have hother : p.parts ≠ [.name d] := fun hparts => hhead (by rw [hparts]; rfl)
    simp only [hhead, false_and, imp_false, false_iff]
    exact (and_iff_left fun hparts => absurd hparts hother).symm

theorem IsDirectoryName.not_appliesTo (hd : IsDirectoryName d) {f : FilterPattern}
    (hf : f.text = '/' :: d ++ ['/']) {p : Path} (hp : p.isAbsolute = false) :
    f.appliesTo p = false := by
  rw [Bool.eq_false_iff]
  intro happlies
  have hlast : ∀ c ∈ ('/' :: d).getLast?, (c == '/') = false := by
    obtain ⟨c, t, rfl⟩ := List.exists_cons_of_ne_nil hd.ne_nil
    rw [List.getLast?_cons_cons]
    exact hd.getLast?_ne
  obtain ⟨v, hv⟩ := (appliesTo_of_endsIn hd.isLiteral_cons hlast hf p).mp happlies
  rw [Path.isAbsolute, ← hv] at hp
  cases hp

end Names

/-- **A pattern for a directory is read from the beginning of the path, and one with a slash in front
is not read at all.** -/
theorem readsDirectory {d : Text} (hd : IsDirectoryName d) : ReadsDirectory d where
  accepted := by
    intro includes t ht hhead
    have hliteral : Glob.IsLiteral t := by
      have hslash : Glob.IsLiteral ['/'] := by simp [Glob.IsLiteral]
      rcases ht with rfl | rfl
      · exact List.forall_mem_append.mpr ⟨hd.literal, hslash⟩
      · exact List.forall_mem_append.mpr ⟨hd.isLiteral_cons, hslash⟩
    exact ⟨_, parse_of_compile hhead hliteral.isPlain.compile, rfl, rfl⟩
  applies_iff _ hf _ hp := hd.appliesTo_iff_head hf hp
  first_iff _ hf _ hp := hd.appliesTo_iff_first hf hp
  expected_iff _ hf _ hp := hd.appliesTo_iff_liesIn hf hp
  none_applies _ hf _ hp := hd.not_appliesTo hf hp

theorem isDirectoryName_vendor : IsDirectoryName "vendor".toList where
  ne_nil := by decide +kernel
  noSlash := by decide +kernel
  literal := by decide +kernel

/-- `vendor/` matches what is in `vendor` at the top, however that is spelled behind the name. -/
theorem readsDirectory_vendor :
    ∃ f, parse "vendor/".toList = .ok f ∧ f.appliesTo ⟨"vendor//a.css".toList⟩ = true := by
  have hreads := readsDirectory isDirectoryName_vendor
  obtain ⟨f, hparse, htext, -⟩ := hreads.accepted false "vendor/".toList (.inl (by decide +kernel))
    (.inr (by decide +kernel))
  have hnormal : (⟨"vendor//a.css".toList⟩ : Path).IsNormal :=
    .of_parts ["vendor".toList, "a.css".toList] (List.cons_ne_nil _ _) (by decide +kernel)
  refine ⟨f, hparse, (hreads.applies_iff f (htext.trans (by decide +kernel)) _ hnormal).mpr ?_⟩
  decide +kernel

/-- **Directories further down are missed, and with a slash in front all of them.** -/
theorem exists_directory_missed :
    ¬ (∀ d, IsDirectoryName d → ∀ f, parse (d ++ ['/']) = .ok f → ∀ p : Path,
        p.IsPlainlyWritten → (f.appliesTo p = true ↔ p.LiesIn d)) ∧
      ¬ ∀ d, IsDirectoryName d → ∀ f, parse ('/' :: d ++ ['/']) = .ok f → ∀ p : Path,
        p.IsPlainlyWritten → (f.appliesTo p = true ↔ p.LiesInFirst d) := by
  constructor
  · intro hall
    have hparse : parse ("vendor".toList ++ ['/']) =
        .ok ⟨"vendor/".toList, "vendor/".toList.map .literal, false⟩ :=
      Outcomes.eq_ok_of_toOption (by decide +kernel)
    have hsame := hall _ isDirectoryName_vendor _ hparse ⟨"lib/vendor/a.css".toList⟩
      (by decide +kernel)
    exact absurd (hsame.mpr (by decide +kernel)) (by decide +kernel)
  · intro hall
    have hname : IsDirectoryName "dist".toList :=
      ⟨by decide +kernel, by decide +kernel, by decide +kernel⟩
    have hparse : parse ('/' :: "dist".toList ++ ['/']) =
        .ok ⟨"/dist/".toList, "/dist/".toList.map .literal, false⟩ :=
      Outcomes.eq_ok_of_toOption (by decide +kernel)
    have hsame := hall _ hname _ hparse ⟨"dist/a.css".toList⟩ (by decide +kernel)
    exact absurd (hsame.mpr (by decide +kernel)) (by decide +kernel)

end FilterPattern
end StyleAudit
