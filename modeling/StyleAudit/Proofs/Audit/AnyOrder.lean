import Mathlib.Data.List.Pairwise
import StyleAudit.Proofs.Audit.Verdict
import StyleAudit.Proofs.Report.Sorting

/-!
# Naming files in another order

A run on files that are named gives the same report in whatever order they are named.  The
report is sorted, but that alone does not settle it, for the order of diagnostics leaves many of
them tied, and what is tied stays as it came.  What settles it is that ties never cross files:

* diagnostics that are tied are about paths with the same parts (`Diagnostic.parts_eq_of_tied`),
  and the files that are named have different parts;
* so everything that is tied with a diagnostic was found in one file, and is there in the order
  in which it was found, wherever that file stands (`filter_tied_flatMap`);
* sorting depends on nothing else (`mergeSort_congr`), and counting on no order at all
  (`counts_congr`).

The moment of a run is only passed on.  A run at another moment gives the same report with that
moment written into it (`checkFile_redate`, `reportOn_redate`).

The main result is `checkPaths_perm`.
-/

namespace StyleAudit

/-! ## Moments -/

/-- The diagnostic as it would be at another moment. -/
def Diagnostic.redate (now : Moment) (d : Diagnostic) : Diagnostic := { d with detectedAt := now }

/-- The report as it would be at another moment. -/
def Report.redate (now : Moment) (r : Report) : Report :=
  { r with
    diagnostics := r.diagnostics.map (Diagnostic.redate now)
    checkedAt := now }

/-! ## Reports -/

namespace Report

/-- How many diagnostics of a list there are of each severity, and before that list. -/
def countsOf (c : Counts) (ds : List Diagnostic) : Counts := ds.foldl (fun c d => c.add d.severity) c

theorem addAll_eq (r : Report) (ds : List Diagnostic) :
    r.addAll ds =
      { r with diagnostics := r.diagnostics ++ ds, counts := countsOf r.counts ds } := by
  induction ds generalizing r with
  | nil => simp [addAll, countsOf]
  | cons d ds ih =>
    have hcons : r.addAll (d :: ds) = (r.add d).addAll ds := rfl
    rw [hcons, ih]
    simp [add, countsOf]

/-- Counting does not depend on the order. -/
theorem counts_congr (c : Counts) {ds es : List Diagnostic} (h : ds.Perm es) :
    countsOf c ds = countsOf c es := by
  refine h.foldl_eq' (fun d _ e _ c => ?_) c
  cases d.severity <;> cases e.severity <;> rfl

theorem countsOf_redate (now : Moment) (c : Counts) (ds : List Diagnostic) :
    countsOf c (ds.map (Diagnostic.redate now)) = countsOf c ds := by
  rw [countsOf, List.foldl_map]
  rfl

/-- The moment does not matter for sorting. -/
theorem sort_redate (now : Moment) (r : Report) : (r.redate now).sort = r.sort.redate now := by
  have hsorted := List.map_mergeSort (l := r.diagnostics)
    (r := fun a b => (a.cmp b).isLE) (s := fun a b => (a.cmp b).isLE)
    (f := Diagnostic.redate now) fun _ _ _ _ => rfl
  simp only [sort, redate, hsorted]

end Report

namespace Audit

/-! ## What is found in one file -/

/-- The moment is only passed on to what is found. -/
theorem findings_redate (c : Config) (now later : Moment) (page : Option Text) (path : Path)
    (bytes : List UInt8) :
    findings c later page path bytes =
      (findings c now page path bytes).map (·.map (Diagnostic.redate later)) := by
  unfold findings
  cases Extract.validate bytes with
  | error e =>
    simp only [diagnosticOf?]
    cases c.severityFor e.checkId <;> rfl
  | ok source =>
    cases page with
    | none => rfl
    | some page =>
      cases hseverity : c.severityFor "unused_selector" with
      | none => rfl
      | some severity =>
        cases hunused : Extract.unusedSelectors bytes page with
        | error e =>
          simp only [hunused]
          rfl
        | ok unused =>
          simp only [hunused, Except.map, List.map_map]
          rfl

/-- The moment is only passed on to what is found in a file that can be read. -/
theorem checkFile_redate (c : Config) (tree : Node) (now later : Moment) (page : Option Text)
    (path : Path) :
    checkFile c tree later page path =
      (checkFile c tree now page path).map (·.map (Diagnostic.redate later)) := by
  rw [checkFile, checkFile]
  cases readFile tree path with
  | error e => rfl
  | ok bytes => exact findings_redate c now later page path bytes

/-- What is found is about the file that is looked at. -/
theorem path_of_mem_findings {c : Config} {now : Moment} {page : Option Text} {path : Path}
    {bytes : List UInt8} {ds : List Diagnostic} {d : Diagnostic}
    (h : findings c now page path bytes = .ok ds) (hd : d ∈ ds) : d.path = path := by
  unfold findings at h
  split at h
  next e _ =>
    cases h
    rw [Option.mem_toList, diagnosticOf?, Option.map_eq_some_iff] at hd
    obtain ⟨severity, -, rfl⟩ := hd
    rfl
  next source _ =>
    split at h
    next _ _ html severity _ =>
      cases hunused : Extract.unusedSelectors bytes html with
      | error e =>
        rw [hunused] at h
        cases h
      | ok unused =>
        rw [hunused] at h
        cases h
        obtain ⟨selector, -, rfl⟩ := List.mem_map.mp hd
        rfl
    next =>
      cases h
      cases hd

theorem path_of_mem_checkFile {c : Config} {tree : Node} {now : Moment} {page : Option Text}
    {path : Path} {ds : List Diagnostic} {d : Diagnostic}
    (h : checkFile c tree now page path = .ok ds) (hd : d ∈ ds) : d.path = path := by
  rw [checkFile] at h
  cases hfile : readFile tree path with
  | error e =>
    rw [hfile] at h
    cases h
  | ok bytes =>
    rw [hfile] at h
    exact path_of_mem_findings h hd

/-! ## What is found in many files -/

section Files

variable {files files' : List Path} {found : Path → List Diagnostic}

theorem flatMap_eq_foldr (files : List Path) :
    files.flatMap found = files.foldr (fun p rest => found p ++ rest) [] := by
  induction files with
  | nil => rfl
  | cons p files ih => rw [List.flatMap_cons, List.foldr_cons, ih]

/-- **What is tied with a diagnostic comes from one file**, so it does not depend on the order of
the files. -/
theorem filter_tied_flatMap (hperm : files.Perm files')
    (hdistinct : files.Pairwise fun p q => p.parts ≠ q.parts)
    (hfound : ∀ p, ∀ d ∈ found p, d.path = p) (k : Diagnostic) :
    (files.flatMap found).filter (tied Diagnostic.cmp k) =
      (files'.flatMap found).filter (tied Diagnostic.cmp k) := by
  have hnil : ∀ p : Path, k.path.parts ≠ p.parts →
      (found p).filter (tied Diagnostic.cmp k) = [] := by
    intro p hne
    rw [List.filter_eq_nil_iff]
    intro d hd htied
    exact hne (hfound p d hd ▸ Diagnostic.parts_eq_of_tied htied)
  have : Std.Symm fun p q : Path => p.parts ≠ q.parts := ⟨fun _ _ h => h.symm⟩
  rw [List.filter_flatMap, List.filter_flatMap, flatMap_eq_foldr, flatMap_eq_foldr]
  refine hperm.foldr_eq' (fun p hp q hq rest => ?_) []
  -- Of two different files at least one has nothing that is tied with `k`.
  by_cases hpq : p = q
  · rw [hpq]
  · have hparts : p.parts ≠ q.parts := hdistinct.forall hp hq hpq
    by_cases hk : k.path.parts = p.parts
    · rw [hnil q (hk ▸ hparts), List.nil_append, List.nil_append]
    · rw [hnil p hk, List.nil_append, List.nil_append]

end Files

/-! ## Runs -/

theorem reportOn_redate (a : Auditor) (now later : Moment) (n : Nat) (ds : List Diagnostic) :
    a.reportOn later n (ds.map (Diagnostic.redate later)) =
      (a.reportOn now n ds).redate later := by
  simp only [Auditor.reportOn, Report.addAll_eq, Report.empty, Report.redate,
    Report.countsOf_redate, List.nil_append]

/-- Reports on what is tied alike and counted alike are the same when they are sorted. -/
theorem sort_reportOn_congr (a : Auditor) (now : Moment) (n : Nat) {ds es : List Diagnostic}
    (hperm : ds.Perm es)
    (hties : ∀ k, ds.filter (tied Diagnostic.cmp k) = es.filter (tied Diagnostic.cmp k)) :
    (a.reportOn now n ds).sort = (a.reportOn now n es).sort := by
  simp only [Auditor.reportOn, Report.addAll_eq, Report.empty, Report.sort, List.nil_append,
    Report.counts_congr {} hperm, mergeSort_congr hties]

/-- **A run on named files gives the same report in whatever order they are named.**  The files
must be readable and the paths must have different parts, and the run must neither leave files
out nor stop after a number of them.  Then the report has the same diagnostics in the same order
and the same counts; a run at another moment has that moment written into its report. -/
theorem checkPaths_perm (a : Auditor) {tree : Node} {o : Options} {paths paths' : List Path}
    (hperm : paths.Perm paths') (hdistinct : paths.Pairwise fun p q => p.parts ≠ q.parts)
    (hread : ∀ p ∈ paths, ∃ bytes, tree.read p = .ok bytes) (hexclude : o.exclude = [])
    (hmost : o.most = none) (now later : Moment) :
    ∃ report, a.checkPaths tree now o paths = .ok report ∧
      a.checkPaths tree later o paths' = .ok (report.redate later) := by
  let found (p : Path) : List Diagnostic :=
    (checkFile a.config tree now o.page p).toOption.getD []
  have hnow : ∀ p ∈ paths, checkFile a.config tree now o.page p = .ok (found p) := by
    intro p hp
    obtain ⟨bytes, hbytes⟩ := hread p hp
    obtain ⟨ds, hds⟩ := exists_checkFile hbytes a.config now o.page
    simp only [found, hds]
    rfl
  have hpath : ∀ p, ∀ d ∈ found p, d.path = p := by
    intro p d hd
    cases hcheck : checkFile a.config tree now o.page p with
    | error e =>
      simp only [found, hcheck] at hd
      cases hd
    | ok ds =>
      simp only [found, hcheck] at hd
      exact path_of_mem_checkFile hcheck hd
  have hlater : ∀ p ∈ paths', checkFile a.config tree later o.page p =
      .ok ((found p).map (Diagnostic.redate later)) := by
    intro p hp
    rw [checkFile_redate _ _ now, hnow p (hperm.mem_iff.mpr hp)]
    rfl
  have hfiles : ∀ p ∈ paths, tree.isFile p = true := by
    intro p hp
    obtain ⟨bytes, hbytes⟩ := hread p hp
    exact isFile_of_read hbytes
  have hfiles' : ∀ p ∈ paths', tree.isFile p = true := fun p hp => hfiles p (hperm.mem_iff.mpr hp)
  have hsorted : (a.reportOn now paths.length (paths.flatMap found)).sort =
      (a.reportOn now paths'.length (paths'.flatMap found)).sort := by
    rw [hperm.length_eq]
    exact sort_reportOn_congr a now _ (hperm.flatMap_right found)
      (filter_tied_flatMap hperm hdistinct hpath)
  refine ⟨_, checkPaths_of_found a hfiles hexclude hmost hnow, ?_⟩
  rw [checkPaths_of_found a hfiles' hexclude hmost hlater, hsorted, ← Report.sort_redate,
    ← reportOn_redate, List.map_flatMap]

/-- A directory with two stylesheets, either of which has too many closing braces. -/
def twoBrokenFiles : Node :=
  .folder [("a.css".toList, .file (Utf8.encode ['\x7d'])),
    ("b.css".toList, .file (Utf8.encode ['\x7d', '\x7d']))]

/-- The two stylesheets with too many braces can be named in either order. -/
theorem checkPaths_perm_twoBrokenFiles :
    ∃ report, (⟨.standard, ⟨[], none, []⟩⟩ : Auditor).checkPaths twoBrokenFiles ⟨"now"⟩ {}
          [⟨"b.css".toList⟩, ⟨"a.css".toList⟩] = .ok report ∧
      (⟨.standard, ⟨[], none, []⟩⟩ : Auditor).checkPaths twoBrokenFiles ⟨"later"⟩ {}
          [⟨"a.css".toList⟩, ⟨"b.css".toList⟩] = .ok (report.redate ⟨"later"⟩) := by
  have hread : ∀ p ∈ [(⟨"b.css".toList⟩ : Path), ⟨"a.css".toList⟩],
      ∃ bytes, twoBrokenFiles.read p = .ok bytes := by
    intro p hp
    rw [List.mem_cons, List.mem_singleton] at hp
    rcases hp with rfl | rfl
    · exact ⟨_, rfl⟩
    · exact ⟨_, rfl⟩
  exact checkPaths_perm _ (List.Perm.swap _ _ _) (by decide) hread rfl rfl _ _

end Audit
end StyleAudit
