import Mathlib.Data.List.Dedup
import StyleAudit.Proofs.Audit.Verdict
import StyleAudit.Proofs.Files.Places

/-!
# How often a file is checked

A run takes any number of paths, and nothing keeps two of them from standing for one file: a file
can be named twice, in two spellings, or together with a directory that it is in.  The run does not
look for this, so such a file is checked once for each of the paths (`checkPaths_counts`).

A single path never stands for a file twice, because a walk comes to each place once
(`nodup_places_share`).  So the number of times that a file is checked is the number of paths that
bring it into the run (`count_places_shares`), where a path brings in the file at a place if it
stands for it in a spelling that the patterns of the run leave in (`Brings`).  Files are told apart
by their places (`Path.place`).

That a file can be checked twice is `exists_checked_twice`.
-/

namespace StyleAudit.Audit

open Node PathFilter

/-! ## Counting over shares -/

/-- Where no share has anything twice, a thing occurs once for each share that it is in. -/
theorem count_flatMap_of_nodup {α β : Type} [BEq β] [LawfulBEq β] {f : α → List β} {l : List α}
    (h : ∀ a ∈ l, (f a).Nodup) (b : β) :
    (l.flatMap f).count b = l.countP fun a => (f a).contains b := by
  induction l with
  | nil => rfl
  | cons a l ih =>
    obtain ⟨ha, hl⟩ := List.forall_mem_cons.mp h
    rw [List.flatMap_cons, List.count_append, ih hl, List.countP_cons, ha.count, Nat.add_comm]
    simp only [List.contains_iff_mem]

theorem nodup_iff_length_dedup {α : Type} [DecidableEq α] {l : List α} :
    l.length = l.dedup.length ↔ l.Nodup := by
  constructor
  · intro h
    exact List.dedup_eq_self.mp ((List.dedup_sublist l).eq_of_length h.symm)
  · intro h
    rw [List.dedup_eq_self.mpr h]

section Runs

variable {g : PathFilter} {tree : Node} {o : Options} {p q : Path} {paths files collected : List Path}

/-! ## What a path stands for -/

/-- The second path is a file that the first stands for, in the spelling in which it is checked: it
is the path itself, or a stylesheet below it that the filter admits. -/
inductive StandsFor (g : PathFilter) (tree : Node) (p : Path) : Path → Prop where
  | named (hfile : tree.isFile p = true) : StandsFor g tree p p
  | walked {trail : List Text} (hfolder : tree.isFolder p = true) (hfile : tree.HasFileAt p trail)
      (hstylesheet : g.isStylesheet (p.below trail) = true)
      (hadmitted : g.admits tree (p.below trail) = .ok true) : StandsFor g tree p (p.below trail)

theorem StandsFor.isFile (h : StandsFor g tree p q) : tree.isFile q = true := by
  cases h with
  | named => assumption
  | walked _ hfile _ _ => exact hfile.leads

/-- The share of a directory, told by the names that the walk goes through. -/
theorem share_of_find {node : Node} (hfolder : tree.isFolder p = true)
    (hfind : tree.find p = .ok node) (h : filesAt g tree p = .ok (share g tree p)) :
    share g tree p = (g.keptTrails tree p node).map p.below := by
  rw [filesAt_of_isFolder hfolder, findFiles_eq_ok_iff hfind] at h
  exact h.2

/-- A path that leads to no file and no directory stands for nothing. -/
theorem share_of_neither (hfile : ¬ tree.isFile p = true) (hfolder : ¬ tree.isFolder p = true) :
    share g tree p = [] :=
  share_eq (by rw [filesAt, if_neg hfile, if_neg hfolder])

/-- **The share of a path are the files that it stands for.** -/
theorem mem_share_iff (htree : tree.IsTree) (h : filesAt g tree p = .ok (share g tree p)) :
    q ∈ share g tree p ↔ StandsFor g tree p q := by
  by_cases hfile : tree.isFile p = true
  · rw [share_of_isFile hfile, List.mem_singleton]
    constructor
    · rintro rfl
      exact .named hfile
    · intro hq
      cases hq with
      | named => rfl
      | walked hfolder => exact absurd hfile (not_isFile_of_isFolder hfolder)
  by_cases hfolder : tree.isFolder p = true
  · obtain ⟨entries, hfind⟩ := exists_folder_of_isFolder hfolder
    rw [share_of_find hfolder hfind h, List.mem_map]
    constructor
    · rintro ⟨trail, htrail, rfl⟩
      obtain ⟨hmem, hstylesheet, hadmitted⟩ := mem_keptTrails_iff.mp htrail
      exact .walked hfolder ((hasFileAt_iff htree hfind).mpr hmem) hstylesheet hadmitted
    · intro hq
      cases hq with
      | named hnamed => exact absurd hnamed hfile
      | @walked trail _ hleads hstylesheet hadmitted =>
        exact ⟨trail, mem_keptTrails_iff.mpr
          ⟨(hasFileAt_iff htree hfind).mp hleads, hstylesheet, hadmitted⟩, rfl⟩
  · rw [share_of_neither hfile hfolder]
    refine ⟨fun hq => absurd hq List.not_mem_nil, fun hq => ?_⟩
    cases hq with
    | named hnamed => exact absurd hnamed hfile
    | walked hwalked => exact absurd hwalked hfolder

/-- **A path stands for no file twice.** -/
theorem nodup_places_share (htree : tree.IsTree) (h : filesAt g tree p = .ok (share g tree p)) :
    ((share g tree p).map Path.place).Nodup := by
  by_cases hfile : tree.isFile p = true
  · rw [share_of_isFile hfile]
    exact List.nodup_singleton _
  by_cases hfolder : tree.isFolder p = true
  · obtain ⟨entries, hfind⟩ := exists_folder_of_isFolder hfolder
    have hnode := isTree_of_find htree hfind
    rw [share_of_find hfolder hfind h, List.map_map]
    refine (nodup_keptTrails hnode).map_on fun a ha b hb hplace => ?_
    rw [Function.comp_apply, Function.comp_apply,
      Path.place_below p (isName_of_mem_keptTrails hnode ha),
      Path.place_below p (isName_of_mem_keptTrails hnode hb)] at hplace
    exact List.append_cancel_left hplace
  · rw [share_of_neither hfile hfolder]
    exact List.nodup_nil

/-! ## What a path brings into a run -/

/-- Whether patterns of a run leave a file in: there are none, or the filter with these patterns
added admits it. -/
def spares (g : PathFilter) (tree : Node) (patterns : List Text) (q : Path) : Bool :=
  patterns.isEmpty ||
    match patterns.foldlM addPattern g with
    | .ok extended => Outcomes.isYes (extended.admits tree q)
    | .error _ => false

theorem eq_filter_of_leaveOut {patterns : List Text}
    (h : leaveOut g tree patterns collected = .ok files) :
    files = collected.filter (spares g tree patterns) := by
  rw [leaveOut] at h
  split at h
  next hempty =>
    cases h
    refine (List.filter_eq_self.mpr fun q _ => ?_).symm
    rw [spares, hempty, Bool.true_or]
  next hempty =>
    obtain ⟨extended, hextended, h⟩ := Outcomes.bind_eq_ok_iff.mp h
    rw [(Outcomes.filterM_eq_ok_iff.mp h).2]
    refine List.filter_congr fun q _ => ?_
    rw [spares, hextended, Bool.eq_false_iff.mpr hempty, Bool.false_or]

/-- The path brings the file at a place into the run. -/
def Brings (g : PathFilter) (tree : Node) (patterns : List Text) (p : Path) (place : List Text) :
    Prop :=
  ∃ q, StandsFor g tree p q ∧ spares g tree patterns q = true ∧ q.place = place

open scoped Classical in
/-- How many of the paths bring the file at a place into the run. -/
noncomputable def bringers (g : PathFilter) (tree : Node) (patterns : List Text)
    (paths : List Path) (place : List Text) : Nat :=
  paths.countP fun p => decide (Brings g tree patterns p place)

/-- **What is left of the shares has each file once for every path that brings it in.** -/
theorem count_places_shares (htree : tree.IsTree) (patterns : List Text)
    (h : ∀ p ∈ paths, filesAt g tree p = .ok (share g tree p)) (place : List Text) :
    (((paths.flatMap (share g tree)).filter (spares g tree patterns)).map Path.place).count place =
      bringers g tree patterns paths place := by
  classical
  have hnodup : ∀ p ∈ paths,
      (((share g tree p).filter (spares g tree patterns)).map Path.place).Nodup := fun p hp =>
    (nodup_places_share htree (h p hp)).sublist (List.filter_sublist.map _)
  rw [List.filter_flatMap, List.map_flatMap, count_flatMap_of_nodup hnodup, bringers]
  refine List.countP_congr fun p hp => ?_
  rw [decide_eq_true_eq, List.contains_iff_mem, List.mem_map, Brings]
  refine exists_congr fun q => ?_
  rw [List.mem_filter, mem_share_iff htree (h p hp), and_assoc]

/-! ## Runs -/

/-- A run that comes to an end has put down everything that was found. -/
theorem gatherAll_eq_ok {outcomes : List Outcome} {ds : List Diagnostic}
    (h : gatherAll o outcomes = .ok ds) : ds = allFound outcomes := by
  cases hfirst : firstFailure? outcomes with
  | none =>
    rw [gatherAll_of_firstFailure?_eq_none hfirst] at h
    exact (Except.ok.inj h).symm
  | some failure =>
    cases hfast : o.failFast with
    | false =>
      rw [gatherAll_of_failFast_eq_false hfast] at h
      exact (Except.ok.inj h).symm
    | true =>
      rw [gatherAll_of_firstFailure? hfast hfirst] at h
      cases h

/-- The report is one on the files: it counts them, and it has what was found in each of them, for
every time that it is among them.  Each of them is a file, the one at its place. -/
structure ReportsOn (a : Auditor) (tree : Node) (now : Moment) (o : Options) (report : Report)
    (files : List Path) (found : Path → List Diagnostic) : Prop where
  counted : report.files = files.length
  placed : ∀ q ∈ files, ∃ bytes, tree.read q = .ok bytes ∧
    tree.follow? q.place = some (.file bytes)
  checked : ∀ q ∈ files, checkFile a.config tree now o.page q = .ok (found q)
  reported : report.diagnostics.Perm (files.flatMap found)

theorem exists_reportsOn (a : Auditor) {now : Moment} {report : Report}
    (hfiles : ∀ q ∈ files, tree.isFile q = true)
    (h : (gatherAll o (files.map fun q => ⟨q, checkFile a.config tree now o.page q⟩)).map
      (fun found => (a.reportOn now files.length found).sort) = .ok report) :
    ∃ found, ReportsOn a tree now o report files found := by
  obtain ⟨ds, hgather, rfl⟩ := Outcomes.map_eq_ok_iff.mp h
  have hplaced : ∀ q ∈ files, ∃ bytes, tree.read q = .ok bytes ∧
      tree.follow? q.place = some (.file bytes) := fun q hq => exists_file_at_place (hfiles q hq)
  refine ⟨fun q => (checkFile a.config tree now o.page q).toOption.getD [], rfl, hplaced, ?_, ?_⟩
  · intro q hq
    obtain ⟨bytes, hread, -⟩ := hplaced q hq
    obtain ⟨found, hfound⟩ := exists_checkFile hread a.config now o.page
    rw [hfound]
    rfl
  · have hds : (a.reportOn now files.length ds).diagnostics = ds := by
      rw [Auditor.reportOn]
      exact Report.diagnostics_addAll _ ds
    refine (List.mergeSort_perm _ _).trans ?_
    rw [hds, gatherAll_eq_ok hgather, allFound, List.flatMap_map]

/-- **A file is checked once for each path that brings it into the run.**  Up to where the run
stops, each place is among those of the selected files as often as there are paths that bring in
the file at this place.  So no file is checked twice if no two paths bring in the same one, and
only then if the run is not to stop after a number of files; and then, and only then, the report
counts each file once. -/
theorem checkPaths_counts (a : Auditor) {tree : Node} (htree : tree.IsTree) {now : Moment}
    {o : Options} {paths : List Path} {report : Report}
    (h : a.checkPaths tree now o paths = .ok report) :
    ∃ (left files : List Path) (found : Path → List Diagnostic),
      select a.filter tree o paths = .ok files ∧ ReportsOn a tree now o report files found ∧
      files = o.cut left ∧
      (∀ place, (left.map Path.place).count place =
        bringers (o.filterOf a.filter) tree o.exclude paths place) ∧
      ((∀ place, bringers (o.filterOf a.filter) tree o.exclude paths place ≤ 1) →
        (files.map Path.place).Nodup) ∧
      (o.most = none → (files.map Path.place).Nodup →
        ∀ place, bringers (o.filterOf a.filter) tree o.exclude paths place ≤ 1) ∧
      (report.files = (files.map Path.place).dedup.length ↔ (files.map Path.place).Nodup) := by
  obtain ⟨files, hselect, hreport⟩ := Outcomes.bind_eq_ok_iff.mp h
  obtain ⟨collected, left, hcollected, hleft, hcut⟩ := select_eq_ok_iff.mp hselect
  obtain ⟨hshares, rfl⟩ := filesAtAll_eq_ok_iff.mp hcollected
  have hcount := count_places_shares htree o.exclude hshares
  rw [← eq_filter_of_leaveOut hleft] at hcount
  have hsublist : files.Sublist (paths.flatMap (share (o.filterOf a.filter) tree)) := by
    rw [hcut, eq_filter_of_leaveOut hleft]
    exact (o.cut_sublist _).trans List.filter_sublist
  have hfiles : ∀ q ∈ files, tree.isFile q = true := by
    intro q hq
    obtain ⟨p, hp, hshare⟩ := List.mem_flatMap.mp (hsublist.subset hq)
    exact ((mem_share_iff htree (hshares p hp)).mp hshare).isFile
  obtain ⟨found, hfound⟩ := exists_reportsOn a hfiles hreport
  refine ⟨left, files, found, hselect, hfound, hcut, hcount, fun hone => ?_, fun hmost hnodup => ?_,
    ?_⟩
  · have hnodup : (left.map Path.place).Nodup :=
      List.nodup_iff_count_le_one.mpr fun place => hcount place ▸ hone place
    rw [hcut]
    exact hnodup.sublist ((o.cut_sublist left).map _)
  · rw [hcut, Options.cut_of_most_eq_none hmost] at hnodup
    exact fun place => hcount place ▸ List.nodup_iff_count_le_one.mp hnodup place
  · rw [hfound.counted, ← List.length_map (f := Path.place), nodup_iff_length_dedup]

end Runs

/-! ## A file that is checked twice -/

theorem isTree_oneBrokenFile : oneBrokenFile.IsTree :=
  .folder (List.forall_mem_singleton.mpr (by decide)) (List.pairwise_singleton _ _)
    (List.forall_mem_singleton.mpr (.file _))

/-- The stylesheet, and the directory that it is in. -/
def sheetAndFolder : List Path := [⟨"a.css".toList⟩, ⟨".".toList⟩]

theorem select_sheetAndFolder :
    select ⟨[], none, ["css".toList]⟩ oneBrokenFile {} sheetAndFolder =
      .ok [⟨"a.css".toList⟩, ⟨"./a.css".toList⟩] :=
  Outcomes.eq_ok_of_toOption (by decide +kernel)

/-- A run that passes over failures comes to an end. -/
theorem exists_checkPaths {a : Auditor} {tree : Node} {o : Options} {paths files : List Path}
    (h : select a.filter tree o paths = .ok files) (hpass : o.failFast = false) (now : Moment) :
    ∃ report, a.checkPaths tree now o paths = .ok report := by
  rw [Auditor.checkPaths, h]
  show ∃ report, (gatherAll o _ >>= fun found => _) = .ok report
  rw [gatherAll_of_failFast_eq_false hpass]
  exact ⟨_, rfl⟩

/-- The stylesheet is checked twice if it is named together with its directory. -/
theorem checkPaths_counts_sheetAndFolder :
    ∃ report, oneBrokenFile.IsTree ∧
      (⟨.standard, ⟨[], none, ["css".toList]⟩⟩ : Auditor).checkPaths oneBrokenFile default {}
        sheetAndFolder = .ok report ∧
      report.files = 2 ∧
      bringers ⟨[], none, ["css".toList]⟩ oneBrokenFile [] sheetAndFolder ["a.css".toList] = 2 := by
  let a : Auditor := ⟨.standard, ⟨[], none, ["css".toList]⟩⟩
  obtain ⟨report, hreport⟩ := exists_checkPaths (a := a) select_sheetAndFolder rfl default
  obtain ⟨left, files, found, hselect, hfound, hcut, hcount, -⟩ :=
    checkPaths_counts a isTree_oneBrokenFile hreport
  obtain rfl := Except.ok.inj (select_sheetAndFolder.symm.trans hselect)
  rw [Options.cut_of_most_eq_none rfl] at hcut
  refine ⟨report, isTree_oneBrokenFile, hreport, hfound.counted, ?_⟩
  rw [← hcut] at hcount
  exact (hcount ["a.css".toList]).symm.trans (by decide)

/-- Not every run checks each file at most once, and counts it once. -/
theorem exists_checked_twice :
    ¬ ∀ (c : Config) (a : Auditor) (tree : Node) (now : Moment) (o : Options)
      (paths files : List Path) (report : Report),
      Auditor.ofConfig c = .ok a → tree.IsTree → select a.filter tree o paths = .ok files →
      a.checkPaths tree now o paths = .ok report →
      (files.map Path.place).Nodup ∧ report.files = (files.map Path.place).dedup.length := by
  intro hall
  have hselected : (Auditor.ofConfig .standard).toOption.map
      (fun a => (select a.filter oneBrokenFile {} sheetAndFolder).toOption) =
      some (some [⟨"a.css".toList⟩, ⟨"./a.css".toList⟩]) := by decide +kernel
  obtain ⟨a, ha, hfiles⟩ := Option.map_eq_some_iff.mp hselected
  have hfiles := Outcomes.eq_ok_of_toOption hfiles
  obtain ⟨report, hreport⟩ := exists_checkPaths hfiles rfl default
  obtain ⟨hnodup, -⟩ := hall _ a _ _ _ _ _ report (Outcomes.eq_ok_of_toOption ha)
    isTree_oneBrokenFile hfiles hreport
  exact absurd hnodup (by decide)

end StyleAudit.Audit
