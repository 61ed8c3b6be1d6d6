import StyleAudit.Audit.Run
import StyleAudit.Proofs.Outcomes

/-!
# The files that a run collects

A run collects files in three steps (`select_eq_ok_iff`): it goes through its paths and puts down
what each of them stands for, then it leaves out what its own patterns match, and then it stops
after a number of files.

What a path stands for is its `share`.  It does not depend on the other paths, so the first step
gives the shares of the paths one behind the other (`filesAtAll_eq_ok_iff`).  A file that is named
is its own share, whatever the filter says of it (`share_of_isFile`); in every other share there are
only files that the filter admits (`admits_of_mem_share`).
-/

namespace StyleAudit.Audit

/-! ## The steps -/

/-- The filter that a run asks. -/
def Options.filterOf (o : Options) (f : PathFilter) : PathFilter :=
  if o.ignoreFiles then f else f.withoutIgnoreFiles

/-- The files of a list that a run gets to. -/
def Options.cut (o : Options) (files : List Path) : List Path :=
  match o.most with
  | none => files
  | some n => files.take n

theorem Options.cut_sublist (o : Options) (files : List Path) : (o.cut files).Sublist files := by
  rw [cut]
  split
  · exact List.Sublist.refl _
  · exact List.take_sublist _ _

theorem Options.cut_of_most_eq_none {o : Options} (h : o.most = none) (files : List Path) :
    o.cut files = files := by
  rw [cut, h]

section Steps

variable {f : PathFilter} {tree : Node} {o : Options} {paths files collected : List Path}

theorem select_eq_bind : select f tree o paths =
    filesAtAll (o.filterOf f) tree paths >>= fun files =>
      leaveOut (o.filterOf f) tree o.exclude files >>= fun left => .ok (o.cut left) :=
  rfl

theorem select_of_filesAtAll (h : filesAtAll (o.filterOf f) tree paths = .ok collected) :
    select f tree o paths = (leaveOut (o.filterOf f) tree o.exclude collected).map o.cut := by
  rw [select_eq_bind, h]
  show (leaveOut (o.filterOf f) tree o.exclude collected >>= fun left => .ok (o.cut left)) = _
  cases leaveOut (o.filterOf f) tree o.exclude collected <;> rfl

/-- **A run collects, leaves out and stops.** -/
theorem select_eq_ok_iff : select f tree o paths = .ok files ↔
    ∃ collected left, filesAtAll (o.filterOf f) tree paths = .ok collected ∧
      leaveOut (o.filterOf f) tree o.exclude collected = .ok left ∧ files = o.cut left := by
  rw [select_eq_bind, Outcomes.bind_eq_ok_iff]
  simp only [Outcomes.bind_eq_ok_iff, Except.ok.injEq, eq_comm (b := files), exists_and_left]

end Steps

/-! ## Shares -/

section Shares

variable {g : PathFilter} {tree : Node} {p q : Path} {paths collected found : List Path}

/-- The files that a path stands for; none if there is no answer. -/
def share (g : PathFilter) (tree : Node) (p : Path) : List Path :=
  (filesAt g tree p).toOption.getD []

theorem share_eq (h : filesAt g tree p = .ok found) : share g tree p = found := by
  rw [share, h]
  rfl

/-- **What is collected are the shares of the paths, one behind the other.** -/
theorem filesAtAll_eq_ok_iff : filesAtAll g tree paths = .ok collected ↔
    (∀ p ∈ paths, filesAt g tree p = .ok (share g tree p)) ∧
      collected = paths.flatMap (share g tree) := by
  rw [filesAtAll, Outcomes.bind_eq_ok_iff]
  simp only [Outcomes.mapM_eq_ok_iff]
  constructor
  · rintro ⟨shares, hshares, h⟩
    obtain rfl := Except.ok.inj h
    have hall : ∀ p ∈ paths, ∃ found, filesAt g tree p = .ok found := by
      intro p hp
      have hmem : filesAt g tree p ∈ shares.map .ok := hshares ▸ List.mem_map_of_mem hp
      obtain ⟨found, -, hfound⟩ := List.mem_map.mp hmem
      exact ⟨found, hfound.symm⟩
    have heq : paths.map (share g tree) = shares := by
      have hgot := congrArg (List.map fun x => x.toOption.getD []) hshares
      rw [List.map_map, List.map_map] at hgot
      exact hgot.trans (List.map_id shares)
    refine ⟨fun p hp => ?_, by rw [List.flatMap_def, heq]⟩
    obtain ⟨found, hfound⟩ := hall p hp
    rw [share_eq hfound, hfound]
  · rintro ⟨hall, rfl⟩
    refine ⟨paths.map (share g tree), ?_, by rw [List.flatMap_def]; rfl⟩
    rw [List.map_map]
    exact List.map_congr_left hall

theorem filesAt_of_isFile (h : tree.isFile p = true) : filesAt g tree p = .ok [p] := if_pos h

/-- A file that is named is its own share. -/
theorem share_of_isFile (h : tree.isFile p = true) : share g tree p = [p] :=
  share_eq (filesAt_of_isFile h)

theorem exists_folder_of_isFolder (h : tree.isFolder p = true) :
    ∃ entries, tree.find p = .ok (.folder entries) := by
  rw [Node.isFolder] at h
  split at h
  next entries hfind => exact ⟨entries, hfind⟩
  next => cases h

theorem not_isFile_of_isFolder (h : tree.isFolder p = true) : ¬ tree.isFile p = true := by
  obtain ⟨entries, hfind⟩ := exists_folder_of_isFolder h
  rw [Node.isFile, hfind]
  exact Bool.false_ne_true

/-- The share of a directory is what the walk finds. -/
theorem filesAt_of_isFolder (h : tree.isFolder p = true) :
    filesAt g tree p = g.findFiles tree p := by
  rw [filesAt, if_neg (not_isFile_of_isFolder h), if_pos h]

theorem admits_of_mem_findFiles (h : g.findFiles tree p = .ok found) (hq : q ∈ found) :
    g.admits tree q = .ok true := by
  rw [PathFilter.findFiles] at h
  split at h
  next node _ =>
    obtain ⟨-, rfl⟩ := Outcomes.filterM_eq_ok_iff.mp h
    exact Outcomes.isYes_iff.mp (List.mem_filter.mp hq).2
  next =>
    cases h
    cases hq

/-- **The filter admits every file that was not named itself.** -/
theorem admits_of_mem_share (h : ¬ tree.isFile p = true) (hq : q ∈ share g tree p) :
    g.admits tree q = .ok true := by
  rw [share, filesAt, if_neg h] at hq
  split at hq
  · cases hfound : g.findFiles tree p with
    | error e =>
      rw [hfound] at hq
      cases hq
    | ok found =>
      rw [hfound] at hq
      exact admits_of_mem_findFiles hfound hq
  · cases hq

end Shares

end StyleAudit.Audit
