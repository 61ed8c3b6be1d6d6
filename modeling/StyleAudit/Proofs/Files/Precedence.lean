import StyleAudit.Files.PathFilter
import StyleAudit.Proofs.Files.Ancestors

/-!
# Which ignore file decides

A path that the patterns of a filter let in is put to the ignore files in the directories above
it.  Each of them says something or nothing: what the last of its patterns says that match the
path as seen from its directory (`wordOf`).  If two of them contradict each other, one has to
overrule the other, and there are two rules that suggest themselves (`LetIn`): the file further
down overrules, as it would for a version control system, or the file further up.

The files are asked from the nearest directory up, and each of them that says something replaces
what was said before (`foldlM_askIgnoreFile`).  So it is the one furthest up that decides.  The
main result is `admits_of_included`; that the other rule is not followed is
`exists_overruled_from_above`.
-/

namespace StyleAudit.PathFilter

/-! ## What is said about a path -/

/-- What the last of the patterns that match the path says, if one does. -/
def lastMatch? (patterns : List FilterPattern) (path : Path) : Option Bool :=
  (patterns.filter fun p => p.appliesTo path).getLast?.map FilterPattern.includes

theorem lastWord_eq (patterns : List FilterPattern) (path : Path) :
    ∀ otherwise : Bool,
      lastWord patterns path otherwise = (lastMatch? patterns path).getD otherwise := by
  induction patterns with
  | nil => exact fun _ => rfl
  | cons p patterns ih =>
    intro otherwise
    have hcons : lastWord (p :: patterns) path otherwise =
        lastWord patterns path (if p.appliesTo path then p.includes else otherwise) := rfl
    rw [hcons, ih, lastMatch?, lastMatch?]
    rw [List.filter_cons]
    split
    next =>
      rw [List.getLast?_cons]
      cases (patterns.filter fun p => p.appliesTo path).getLast? <;> rfl
    next => rfl

/-- What the ignore file in a directory says about the path, if it says anything. -/
def wordOf (tree : Node) (name : Text) (path dir : Path) : Option Bool :=
  match readIgnoreFile tree (dir.join name), path.relativeTo? dir with
  | .ok patterns, some seen => lastMatch? patterns seen
  | _, _ => none

/-- Whether a path is let in by the ignore files above it, when one of them overrules another if
the depths of their directories are so related: none says anything, or one that none overrules
lets the path in. -/
def LetIn (tree : Node) (name : Text) (path : Path) (overrules : Nat → Nat → Prop) : Prop :=
  (∀ dir ∈ path.ancestors, wordOf tree name path dir = none) ∨
    ∃ dir ∈ path.ancestors, wordOf tree name path dir = some true ∧
      ∀ other ∈ path.ancestors, overrules other.parts.length dir.parts.length →
        wordOf tree name path other = none

section Words

variable {tree : Node} {name : Text} {path : Path}

/-- A file that can be read replaces what was said before by what it says. -/
theorem askIgnoreFile_of_readable {dir : Path} {patterns : List FilterPattern}
    (h : readIgnoreFile tree (dir.join name) = .ok patterns) (included : Bool) :
    askIgnoreFile tree name path included dir =
      .ok ((wordOf tree name path dir).getD included) := by
  rw [askIgnoreFile, wordOf, h]
  cases path.relativeTo? dir with
  | none => rfl
  | some seen => exact congrArg Except.ok (lastWord_eq patterns seen included)

/-- **Of the files that are asked, the last one that says anything decides.** -/
theorem foldlM_askIgnoreFile {dirs : List Path}
    (h : ∀ dir ∈ dirs, ∃ patterns, readIgnoreFile tree (dir.join name) = .ok patterns) :
    ∀ included : Bool, dirs.foldlM (askIgnoreFile tree name path) included =
      .ok ((dirs.reverse.findSome? (wordOf tree name path)).getD included) := by
  induction dirs with
  | nil => exact fun _ => rfl
  | cons dir dirs ih =>
    intro included
    obtain ⟨⟨patterns, hread⟩, hdirs⟩ := List.forall_mem_cons.mp h
    rw [List.foldlM_cons, askIgnoreFile_of_readable hread]
    show dirs.foldlM (askIgnoreFile tree name path) _ = _
    rw [ih hdirs, List.reverse_cons, List.findSome?_append]
    cases dirs.reverse.findSome? (wordOf tree name path) with
    | some word => rfl
    | none =>
      rw [Option.none_or, List.findSome?_singleton]
      rfl

/-- The first file that cannot be read ends it. -/
theorem foldlM_askIgnoreFile_of_unreadable {before after : List Path} {dir : Path} {e : Failure}
    (hbefore : ∀ d ∈ before, ∃ patterns, readIgnoreFile tree (d.join name) = .ok patterns)
    (h : readIgnoreFile tree (dir.join name) = .error e) (included : Bool) :
    (before ++ dir :: after).foldlM (askIgnoreFile tree name path) included = .error e := by
  rw [List.foldlM_append, foldlM_askIgnoreFile hbefore]
  show (dir :: after).foldlM (askIgnoreFile tree name path) _ = _
  rw [List.foldlM_cons, askIgnoreFile, h]
  rfl

/-- If directories are listed so that each overrules those behind it, the first that says
anything decides. -/
theorem letIn_iff {overrules : Nat → Nat → Prop} {dirs : List Path}
    (hmem : ∀ dir, dir ∈ dirs ↔ dir ∈ path.ancestors)
    (horder : dirs.Pairwise fun dir other =>
      overrules dir.parts.length other.parts.length ∧
        ¬ overrules other.parts.length dir.parts.length) (hirrefl : ∀ n, ¬ overrules n n) :
    LetIn tree name path overrules ↔
      (dirs.findSome? (wordOf tree name path)).getD true = true := by
  cases hfind : dirs.findSome? (wordOf tree name path) with
  | none =>
    refine ⟨fun _ => rfl, fun _ => .inl fun dir hdir => ?_⟩
    exact List.findSome?_eq_none_iff.mp hfind dir ((hmem dir).mpr hdir)
  | some word =>
    obtain ⟨before, first, after, hsplit, hword, hbefore⟩ := List.findSome?_eq_some_iff.mp hfind
    rw [hsplit, List.pairwise_append, List.pairwise_cons] at horder
    obtain ⟨-, ⟨hafter, -⟩, hacross⟩ := horder
    have hfirst : first ∈ path.ancestors :=
      (hmem first).mp (hsplit ▸ List.mem_append_right _ List.mem_cons_self)
    have hplace : ∀ dir ∈ path.ancestors, dir ∈ before ∨ dir = first ∨ dir ∈ after := by
      intro dir hdir
      have hin := (hmem dir).mpr hdir
      rwa [hsplit, List.mem_append, List.mem_cons] at hin
    rw [Option.getD_some]
    constructor
    · rintro (hsilent | ⟨dir, hdir, hlets, hover⟩)
      · rw [hsilent first hfirst] at hword
        cases hword
      · rcases hplace dir hdir with hin | rfl | hin
        · rw [hbefore dir hin] at hlets
          cases hlets
        · rw [hlets] at hword
          exact (Option.some.inj hword).symm
        · rw [hover first hfirst (hafter dir hin).1] at hword
          cases hword
    · rintro rfl
      refine .inr ⟨first, hfirst, hword, fun other hother hover => ?_⟩
      rcases hplace other hother with hin | rfl | hin
      · exact hbefore other hin
      · exact absurd hover (hirrefl _)
      · exact absurd hover (hafter other hin).2

/-- The file furthest up decides if those further up overrule. -/
theorem letIn_lt_iff :
    LetIn tree name path (· < ·) ↔
      (path.ancestors.reverse.findSome? (wordOf tree name path)).getD true = true := by
  refine letIn_iff (fun dir => List.mem_reverse) (List.pairwise_reverse.mpr ?_) Nat.lt_irrefl
  exact (Path.pairwise_ancestors path).imp fun h => ⟨h, Nat.lt_asymm h⟩

/-- The nearest file decides if those further down overrule. -/
theorem letIn_gt_iff :
    LetIn tree name path (· > ·) ↔
      (path.ancestors.findSome? (wordOf tree name path)).getD true = true :=
  letIn_iff (fun _ => Iff.rfl) ((Path.pairwise_ancestors path).imp fun h => ⟨h, Nat.lt_asymm h⟩)
    Nat.lt_irrefl

/-- It does not matter which files overrule if no two of them contradict each other. -/
theorem letIn_lt_iff_letIn_gt
    (h : ∀ dir ∈ path.ancestors, ∀ other ∈ path.ancestors, ∀ a b,
      wordOf tree name path dir = some a → wordOf tree name path other = some b → a = b) :
    LetIn tree name path (· < ·) ↔ LetIn tree name path (· > ·) := by
  rw [letIn_lt_iff, letIn_gt_iff]
  cases hup : path.ancestors.reverse.findSome? (wordOf tree name path) with
  | none =>
    have hnone : path.ancestors.findSome? (wordOf tree name path) = none := by
      rw [List.findSome?_eq_none_iff] at hup ⊢
      exact fun dir hdir => hup dir (List.mem_reverse.mpr hdir)
    rw [hnone]
  | some a =>
    obtain ⟨dir, hdir, ha⟩ := List.exists_of_findSome?_eq_some hup
    have hdir' : dir ∈ path.ancestors := List.mem_reverse.mp hdir
    cases hdown : path.ancestors.findSome? (wordOf tree name path) with
    | none =>
      rw [List.findSome?_eq_none_iff.mp hdown dir hdir'] at ha
      cases ha
    | some b =>
      obtain ⟨other, hother, hb⟩ := List.exists_of_findSome?_eq_some hdown
      rw [h dir hdir' other hother a b ha hb]

end Words

/-! ## Which of them decides -/

/-- **The ignore file furthest up that says anything decides.**  A path that the patterns of the
filter let in is looked at exactly if no ignore file above it says anything, or if of those that do
the one furthest up lets it in.  A file further down makes no difference, unless none of those above
it says anything; so the nearest file would decide the same only where no two of them contradict
each other.  The nearest file that cannot be read ends it. -/
theorem admits_of_included {f : PathFilter} {tree : Node} {path : Path} {name : Text}
    (hname : f.ignoreName = some name) (hincluded : lastWord f.patterns path true = true) :
    ((∀ dir ∈ path.ancestors, ∃ patterns, readIgnoreFile tree (dir.join name) = .ok patterns) →
      ∃ included, f.admits tree path = .ok included ∧
        (included = true ↔ LetIn tree name path (· < ·))) ∧
    ((∀ dir ∈ path.ancestors, ∀ other ∈ path.ancestors, ∀ a b,
      wordOf tree name path dir = some a → wordOf tree name path other = some b → a = b) →
        (LetIn tree name path (· < ·) ↔ LetIn tree name path (· > ·))) ∧
    ∀ before dir after e, path.ancestors = before ++ dir :: after →
      (∀ d ∈ before, ∃ patterns, readIgnoreFile tree (d.join name) = .ok patterns) →
      readIgnoreFile tree (dir.join name) = .error e → f.admits tree path = .error e := by
  have hadmits : f.admits tree path =
      path.ancestors.foldlM (askIgnoreFile tree name path) true := by
    rw [admits, if_pos hincluded, passesIgnoreFiles, hname]
  rw [hadmits]
  refine ⟨fun hread => ?_, letIn_lt_iff_letIn_gt, ?_⟩
  · exact ⟨_, foldlM_askIgnoreFile hread true, letIn_lt_iff.symm⟩
  · intro before dir after e hsplit hbefore he
    rw [hsplit]
    exact foldlM_askIgnoreFile_of_unreadable hbefore he true

/-! ## Two ignore files that contradict each other -/

/-- A directory whose ignore file leaves out every stylesheet, with a directory in it whose ignore
file lets one in again. -/
def keptBelow : Node :=
  .folder [(".cssignore".toList, .file (Utf8.encode "*.css\n".toList)),
    ("sub".toList, .folder [(".cssignore".toList, .file (Utf8.encode "!keep.css\n".toList)),
      ("keep.css".toList, .file [])])]

/-- A filter without patterns of its own that reads ignore files. -/
def onlyIgnoreFiles : PathFilter := ⟨[], some ".cssignore".toList, ["css".toList]⟩

/-- The stylesheet that is let in again. -/
def keptFile : Path := ⟨"sub/keep.css".toList⟩

theorem readable_keptBelow : ∀ dir ∈ keptFile.ancestors, ∃ patterns,
    readIgnoreFile keptBelow (dir.join ".cssignore".toList) = .ok patterns := by
  have hall : ∀ dir ∈ keptFile.ancestors,
      (readIgnoreFile keptBelow (dir.join ".cssignore".toList)).isOk = true := by decide +kernel
  intro dir hdir
  have hread := hall dir hdir
  cases hfile : readIgnoreFile keptBelow (dir.join ".cssignore".toList) with
  | ok patterns => exact ⟨patterns, rfl⟩
  | error e =>
    rw [hfile] at hread
    cases hread

theorem letIn_gt_keptBelow : LetIn keptBelow ".cssignore".toList keptFile (· > ·) := by
  rw [letIn_gt_iff]
  decide +kernel

theorem not_letIn_lt_keptBelow : ¬ LetIn keptBelow ".cssignore".toList keptFile (· < ·) := by
  rw [letIn_lt_iff]
  decide +kernel

/-- The file further up leaves the stylesheet out. -/
theorem admits_of_included_keptBelow :
    onlyIgnoreFiles.ignoreName = some ".cssignore".toList ∧
      lastWord onlyIgnoreFiles.patterns keptFile true = true ∧
      onlyIgnoreFiles.admits keptBelow keptFile = .ok false := by
  refine ⟨rfl, rfl, ?_⟩
  have hincluded : lastWord onlyIgnoreFiles.patterns keptFile true = true := rfl
  obtain ⟨included, hadmits, hiff⟩ :=
    (admits_of_included (f := onlyIgnoreFiles) rfl hincluded).1 readable_keptBelow
  rw [hadmits]
  cases included with
  | false => rfl
  | true => exact absurd (hiff.mp rfl) not_letIn_lt_keptBelow

/-- A file further down does not overrule those above it. -/
theorem exists_overruled_from_above :
    ¬ ∀ (f : PathFilter) (tree : Node) (path : Path) (name : Text), f.ignoreName = some name →
      lastWord f.patterns path true = true →
      (∀ dir ∈ path.ancestors, ∃ patterns, readIgnoreFile tree (dir.join name) = .ok patterns) →
      ∃ included, f.admits tree path = .ok included ∧
        (included = true ↔ LetIn tree name path (· > ·)) := by
  intro hall
  obtain ⟨included, hadmits, hiff⟩ :=
    hall onlyIgnoreFiles keptBelow keptFile _ rfl rfl readable_keptBelow
  have hout : (onlyIgnoreFiles.admits keptBelow keptFile).toOption = some false := by
    decide +kernel
  rw [hadmits, hiff.mpr letIn_gt_keptBelow] at hout
  cases hout

end StyleAudit.PathFilter
