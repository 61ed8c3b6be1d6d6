import StyleAudit.Proofs.Audit.Collecting
import StyleAudit.Proofs.Files.Precedence

/-!
# Patterns that leave nothing out

A run can be given patterns of files to leave out.  One would expect that patterns which match none
of the files leave the run as it is.  They do not: as soon as there are any, the whole filter is
asked about everything that was collected, and a file that was named had not been asked about
before.

So patterns that match nothing do have an effect, and this file says which (`select_of_matchNone`).

* Added to the filter, they change none of its answers (`leaveOut_of_matchNone`).
* What came from a directory has been admitted already, so nothing of it is lost; of the files
  that were named those are lost that the filter does not admit (`filterPaths_flatMap_share`).
* The run fails if the filter has no answer for a file that was named, because an ignore file
  above it cannot be read.

The run is as it was exactly if the filter admits every file that was named.  That this need not be
so is `exists_named_file_lost`.
-/

namespace StyleAudit

/-! ## A filter with more patterns -/

namespace PathFilter

variable {tree : Node} {path : Path}

/-- Patterns are added to a filter exactly if all of them can be read. -/
theorem foldlM_addPattern (patterns : List Text) (f : PathFilter) :
    patterns.foldlM addPattern f =
      (patterns.mapM parsePattern).map fun more => { f with patterns := f.patterns ++ more } := by
  induction patterns generalizing f with
  | nil =>
    show Except.ok f = Except.ok { f with patterns := f.patterns ++ [] }
    rw [List.append_nil]
  | cons raw patterns ih =>
    rw [List.foldlM_cons, List.mapM_cons, addPattern]
    cases parsePattern raw with
    | error e => rfl
    | ok p =>
      refine (ih { f with patterns := f.patterns ++ [p] }).trans ?_
      cases patterns.mapM parsePattern with
      | error e => rfl
      | ok more =>
        show Except.ok { f with patterns := f.patterns ++ [p] ++ more } =
          Except.ok { f with patterns := f.patterns ++ (p :: more) }
        rw [List.append_assoc, List.singleton_append]

/-- Patterns that do not match a path say nothing to it. -/
theorem lastWord_append_of_unmatched {patterns more : List FilterPattern}
    (h : ∀ p ∈ more, p.appliesTo path = false) (otherwise : Bool) :
    lastWord (patterns ++ more) path otherwise = lastWord patterns path otherwise := by
  have hsilent : more.filter (fun p => p.appliesTo path) = [] :=
    List.filter_eq_nil_iff.mpr fun p hp => by rw [h p hp]; exact Bool.false_ne_true
  rw [lastWord_eq, lastWord_eq, lastMatch?, lastMatch?, List.filter_append, hsilent,
    List.append_nil]

theorem admits_of_unmatched {f : PathFilter} {more : List FilterPattern}
    (h : ∀ p ∈ more, p.appliesTo path = false) :
    ({ f with patterns := f.patterns ++ more } : PathFilter).admits tree path =
      f.admits tree path := by
  rw [admits, admits, lastWord_append_of_unmatched h]
  rfl

end PathFilter

namespace Audit

open PathFilter

section Runs

variable {f g : PathFilter} {tree : Node} {o : Options} {paths files collected : List Path}

/-! ## Patterns that match nothing -/

/-- The patterns can be read, and none of them matches any of the files. -/
def MatchNone (patterns : List Text) (files : List Path) : Prop :=
  ∀ raw ∈ patterns, ∃ p, parsePattern raw = .ok p ∧ ∀ file ∈ files, p.appliesTo file = false

/-- **With patterns that match nothing the filter is asked about every file.** -/
theorem leaveOut_of_matchNone {patterns : List Text} (hne : patterns ≠ [])
    (h : MatchNone patterns files) : leaveOut g tree patterns files = g.filterPaths tree files := by
  obtain ⟨more, hmore⟩ := Outcomes.exists_mapM_iff.mpr fun raw hraw =>
    let ⟨p, hp, _⟩ := h raw hraw
    ⟨p, hp⟩
  have hsilent : ∀ file ∈ files, ∀ p ∈ more, p.appliesTo file = false := by
    intro file hfile p hp
    have hread : Except.ok p ∈ patterns.map parsePattern := by
      rw [Outcomes.mapM_eq_ok_iff.mp hmore]
      exact List.mem_map_of_mem hp
    obtain ⟨raw, hraw, heq⟩ := List.mem_map.mp hread
    obtain ⟨q, hq, hnot⟩ := h raw hraw
    obtain rfl := Except.ok.inj (heq.symm.trans hq)
    exact hnot file hfile
  rw [leaveOut, if_neg (by rw [List.isEmpty_iff]; exact hne), foldlM_addPattern, hmore]
  exact Outcomes.filterM_congr fun file hfile => admits_of_unmatched (hsilent file hfile)

/-! ## What is left of the shares -/

/-- What holds of everything that the filter admits holds of all files that are collected if it
holds of those that are named. -/
theorem forall_mem_shares_iff {holds : Path → Prop}
    (hadmitted : ∀ q, g.admits tree q = .ok true → holds q) :
    (∀ q ∈ paths.flatMap (share g tree), holds q) ↔
      ∀ p ∈ paths, tree.isFile p = true → holds p := by
  constructor
  · intro h p hp hfile
    refine h p (List.mem_flatMap.mpr ⟨p, hp, ?_⟩)
    rw [share_of_isFile hfile]
    exact List.mem_singleton_self p
  · intro h q hq
    obtain ⟨p, hp, hq⟩ := List.mem_flatMap.mp hq
    by_cases hfile : tree.isFile p = true
    · rw [share_of_isFile hfile, List.mem_singleton] at hq
      exact hq ▸ h p hp hfile
    · exact hadmitted q (admits_of_mem_share hfile hq)

/-- Whether a path stands for the same files when the filter is asked about all of them: it is no
file, or the filter admits it. -/
def keepsShare (g : PathFilter) (tree : Node) (p : Path) : Bool :=
  !tree.isFile p || Outcomes.isYes (g.admits tree p)

theorem filter_share (p : Path) :
    (share g tree p).filter (fun q => Outcomes.isYes (g.admits tree q)) =
      if keepsShare g tree p then share g tree p else [] := by
  cases hfile : tree.isFile p with
  | true =>
    rw [keepsShare, hfile, share_of_isFile hfile, Bool.not_true, Bool.false_or,
      List.filter_singleton, Bool.cond_eq_ite]
  | false =>
    have hadmitted : ∀ q ∈ share g tree p, Outcomes.isYes (g.admits tree q) = true := fun q hq =>
      Outcomes.isYes_iff.mpr (admits_of_mem_share (by rw [hfile]; exact Bool.false_ne_true) hq)
    rw [keepsShare, hfile, Bool.not_false, Bool.true_or, if_pos rfl,
      List.filter_eq_self.mpr hadmitted]

theorem filter_shares (paths : List Path) :
    (paths.flatMap (share g tree)).filter (fun q => Outcomes.isYes (g.admits tree q)) =
      (paths.filter (keepsShare g tree)).flatMap (share g tree) := by
  induction paths with
  | nil => rfl
  | cons p paths ih =>
    rw [List.flatMap_cons, List.filter_append, ih, filter_share, List.filter_cons]
    split
    · rw [List.flatMap_cons]
    · rw [List.nil_append]

/-- **Of what was collected the files are lost that were named and are not admitted.** -/
theorem filterPaths_shares_iff :
    g.filterPaths tree (paths.flatMap (share g tree)) = .ok files ↔
      (∀ p ∈ paths, tree.isFile p = true → ∃ b, g.admits tree p = .ok b) ∧
        files = (paths.filter (keepsShare g tree)).flatMap (share g tree) := by
  rw [filterPaths, Outcomes.filterM_eq_ok_iff, filter_shares,
    forall_mem_shares_iff fun q hq => ⟨true, hq⟩]

/-- Nothing of what was collected is lost exactly if every file that was named is admitted. -/
theorem filterPaths_shares_eq_self_iff :
    g.filterPaths tree (paths.flatMap (share g tree)) = .ok (paths.flatMap (share g tree)) ↔
      ∀ p ∈ paths, tree.isFile p = true → g.admits tree p = .ok true := by
  rw [filterPaths, Outcomes.filterM_eq_ok_iff, eq_comm (a := paths.flatMap _),
    List.filter_eq_self, ← forall_mem_shares_iff fun _ hq => hq]
  refine ⟨fun h q hq => Outcomes.isYes_iff.mp (h.2 q hq), fun h => ⟨fun q hq => ?_, fun q hq => ?_⟩⟩
  · exact ⟨true, h q hq⟩
  · exact Outcomes.isYes_iff.mpr (h q hq)

/-! ## Runs -/

/-- Patterns that match nothing act on a run that has collected its files only through the files
that were named. -/
theorem select_eq_filterPaths (hcollected : filesAtAll (o.filterOf f) tree paths = .ok collected)
    (hexclude : o.exclude ≠ []) (hnone : MatchNone o.exclude collected) :
    select f tree o paths = ((o.filterOf f).filterPaths tree collected).map o.cut := by
  rw [select_of_filesAtAll hcollected, leaveOut_of_matchNone hexclude hnone]

/-- Without patterns everything that was collected is checked. -/
theorem select_of_no_patterns (h : filesAtAll (o.filterOf f) tree paths = .ok collected) :
    select f tree { o with exclude := [] } paths = .ok (o.cut collected) :=
  select_of_filesAtAll (o := { o with exclude := [] }) h

/-- A run reports on the files that it selects. -/
theorem checkPaths_congr (a : Auditor) (now : Moment) {exclude : List Text} {paths' : List Path}
    (h : select a.filter tree o paths = select a.filter tree { o with exclude := exclude } paths') :
    a.checkPaths tree now o paths = a.checkPaths tree now { o with exclude := exclude } paths' := by
  rw [Auditor.checkPaths, Auditor.checkPaths, h]
  rfl

/-- **What patterns do that match nothing.**  There is an answer exactly if the filter has one for
every file that was named.  Then the run is the run without patterns over those paths that are no
file or a file that the filter admits.  So it is the run without patterns if all files that were
named are admitted; and if the run is not to stop after a number of files, only then. -/
theorem select_of_matchNone (a : Auditor) {tree : Node} {o : Options} {paths collected : List Path}
    (hcollected : filesAtAll (o.filterOf a.filter) tree paths = .ok collected)
    (hexclude : o.exclude ≠ []) (hnone : MatchNone o.exclude collected) :
    ((∃ files, select a.filter tree o paths = .ok files) ↔
      ∀ p ∈ paths, tree.isFile p = true → ∃ b, (o.filterOf a.filter).admits tree p = .ok b) ∧
    ((∀ p ∈ paths, tree.isFile p = true → ∃ b, (o.filterOf a.filter).admits tree p = .ok b) →
      select a.filter tree o paths = select a.filter tree { o with exclude := [] }
        (paths.filter (keepsShare (o.filterOf a.filter) tree))) ∧
    ((∀ p ∈ paths, tree.isFile p = true → (o.filterOf a.filter).admits tree p = .ok true) →
      select a.filter tree o paths = select a.filter tree { o with exclude := [] } paths ∧
      ∀ now, a.checkPaths tree now o paths =
        a.checkPaths tree now { o with exclude := [] } paths) ∧
    (o.most = none →
      select a.filter tree o paths = select a.filter tree { o with exclude := [] } paths →
      ∀ p ∈ paths, tree.isFile p = true → (o.filterOf a.filter).admits tree p = .ok true) := by
  have hwith := select_eq_filterPaths hcollected hexclude hnone
  have hwithout := select_of_no_patterns hcollected
  obtain ⟨hshares, rfl⟩ := filesAtAll_eq_ok_iff.mp hcollected
  refine ⟨?_, fun hanswers => ?_, fun hadmitted => ?_, fun hmost hsame => ?_⟩
  · rw [hwith]
    constructor
    · rintro ⟨files, hfiles⟩
      obtain ⟨left, hleft, -⟩ := Outcomes.map_eq_ok_iff.mp hfiles
      exact (filterPaths_shares_iff.mp hleft).1
    · intro hanswers
      rw [filterPaths_shares_iff.mpr ⟨hanswers, rfl⟩]
      exact ⟨_, rfl⟩
  · have hkept : filesAtAll (o.filterOf a.filter) tree
        (paths.filter (keepsShare (o.filterOf a.filter) tree)) = .ok _ :=
      filesAtAll_eq_ok_iff.mpr ⟨fun p hp => hshares p (List.mem_of_mem_filter hp), rfl⟩
    rw [hwith, filterPaths_shares_iff.mpr ⟨hanswers, rfl⟩, select_of_no_patterns hkept]
    rfl
  · have hsame : select a.filter tree o paths =
        select a.filter tree { o with exclude := [] } paths := by
      rw [hwith, filterPaths_shares_eq_self_iff.mpr hadmitted, hwithout]
      rfl
    exact ⟨hsame, fun now => checkPaths_congr a now hsame⟩
  · obtain ⟨left, hleft, heq⟩ := Outcomes.map_eq_ok_iff.mp (hwith.symm.trans (hsame.trans hwithout))
    rw [Options.cut_of_most_eq_none hmost, Options.cut_of_most_eq_none hmost] at heq
    exact filterPaths_shares_eq_self_iff.mp (heq ▸ hleft)

end Runs

/-! ## A file that is lost -/

/-- A stylesheet of the kind that the standard configuration leaves out. -/
def minifiedSheet : Node := .folder [("lib.min.css".toList, .file [])]

/-- The run leaves out what is in a directory that is not there. -/
def withoutVendor : Options := { exclude := ["vendor/**".toList] }

theorem matchNone_withoutVendor :
    MatchNone withoutVendor.exclude [⟨"lib.min.css".toList⟩] := by
  intro raw hraw
  obtain rfl := List.mem_singleton.mp hraw
  have hsilent : (parsePattern "vendor/**".toList).toOption.map
      (fun p => p.appliesTo ⟨"lib.min.css".toList⟩) = some false := by decide +kernel
  obtain ⟨p, hp, hnot⟩ := Option.map_eq_some_iff.mp hsilent
  refine ⟨p, Outcomes.eq_ok_of_toOption hp, fun file hfile => ?_⟩
  rw [List.mem_singleton.mp hfile, hnot]

/-- What the standard configuration makes of the stylesheet when it is named. -/
theorem exists_standard_minifiedSheet :
    ∃ a, Auditor.ofConfig .standard = .ok a ∧
      filesAtAll (withoutVendor.filterOf a.filter) minifiedSheet [⟨"lib.min.css".toList⟩] =
        .ok [⟨"lib.min.css".toList⟩] ∧
      (withoutVendor.filterOf a.filter).admits minifiedSheet ⟨"lib.min.css".toList⟩ =
        .ok false := by
  have hcollected : (Auditor.ofConfig .standard).toOption.map
      (fun a => (withoutVendor.filterOf a.filter).admits minifiedSheet
        ⟨"lib.min.css".toList⟩ |>.toOption) = some (some false) := by decide +kernel
  obtain ⟨a, ha, hadmits⟩ := Option.map_eq_some_iff.mp hcollected
  exact ⟨a, Outcomes.eq_ok_of_toOption ha, rfl, Outcomes.eq_ok_of_toOption hadmits⟩

/-- With the pattern that matches nothing the run over the named stylesheet is a run over
nothing. -/
theorem select_of_matchNone_minifiedSheet :
    ∃ a, Auditor.ofConfig .standard = .ok a ∧
      filesAtAll (withoutVendor.filterOf a.filter) minifiedSheet [⟨"lib.min.css".toList⟩] =
        .ok [⟨"lib.min.css".toList⟩] ∧
      withoutVendor.exclude ≠ [] ∧
      MatchNone withoutVendor.exclude [⟨"lib.min.css".toList⟩] ∧
      select a.filter minifiedSheet withoutVendor [⟨"lib.min.css".toList⟩] = .ok [] := by
  obtain ⟨a, ha, hcollected, hadmits⟩ := exists_standard_minifiedSheet
  refine ⟨a, ha, hcollected, List.cons_ne_nil _ _, matchNone_withoutVendor, ?_⟩
  rw [(select_of_matchNone a hcollected (List.cons_ne_nil _ _) matchNone_withoutVendor).2.1
    fun p hp _ => ⟨false, List.mem_singleton.mp hp ▸ hadmits⟩]
  have hlost : keepsShare (withoutVendor.filterOf a.filter) minifiedSheet
      ⟨"lib.min.css".toList⟩ = false := by
    rw [keepsShare, hadmits]
    rfl
  rw [List.filter_singleton, hlost]
  rfl

/-- Patterns that match none of the files do not always leave a run as it is. -/
theorem exists_named_file_lost :
    ¬ ∀ (c : Config) (a : Auditor) (tree : Node) (o : Options) (paths collected : List Path),
      Auditor.ofConfig c = .ok a →
      filesAtAll (o.filterOf a.filter) tree paths = .ok collected →
      o.exclude ≠ [] → MatchNone o.exclude collected →
      select a.filter tree o paths = select a.filter tree { o with exclude := [] } paths := by
  intro hall
  obtain ⟨a, ha, hcollected, hadmits⟩ := exists_standard_minifiedSheet
  have hsame := hall _ a _ _ _ _ ha hcollected (List.cons_ne_nil _ _) matchNone_withoutVendor
  rw [select_eq_filterPaths hcollected (List.cons_ne_nil _ _) matchNone_withoutVendor,
    select_of_no_patterns hcollected] at hsame
  obtain ⟨left, hleft, heq⟩ := Outcomes.map_eq_ok_iff.mp hsame
  obtain rfl : left = [⟨"lib.min.css".toList⟩] := heq
  obtain ⟨-, hkept⟩ := Outcomes.filterM_eq_ok_iff.mp hleft
  have hyes := List.filter_eq_self.mp hkept.symm _ (List.mem_singleton_self _)
  rw [hadmits] at hyes
  cases hyes

end Audit
end StyleAudit
