import Mathlib.Data.List.Induction
import StyleAudit.Proofs.Report.Sorting
import StyleAudit.Report.Human
import StyleAudit.Table

/-!
# Diagnostics grouped by file

For a person the diagnostics are filed one by one into a table under the parts of their paths.
What has been filed under some parts is at any time the list of the diagnostics with these parts,
as they came, under the path of the first of them (`getElem?_foldl_addToGroup`).  So the groups
are told without the table: one for each file that a diagnostic is about, in the order of the
files (`IsGrouping`, `isGrouping_groupByFile`).

Of a list of diagnostics its groups keep, for every file, the list of those about it
(`IsGrouping.filter_flatMap`).  Two results follow.

* Nothing is lost and nothing is shown twice: the groups together have the diagnostics of the
  list (`IsGrouping.perm_flatMap`).
* The groups of a list that is in order of the files are its pieces, one behind the other
  (`IsGrouping.flatMap_eq`), since a list in order is known from what it has about every file.
-/

namespace StyleAudit.Report

/-! ## What is filed under a path -/

/-- The diagnostics about the file with the given parts. -/
def about (parts : List Path.Part) (ds : List Diagnostic) : List Diagnostic :=
  ds.filter fun d => d.path.parts == parts

theorem about_append_singleton (parts : List Path.Part) (ds : List Diagnostic) (d : Diagnostic) :
    about parts (ds ++ [d]) =
      if d.path.parts = parts then about parts ds ++ [d] else about parts ds := by
  rw [about, List.filter_append, ← about]
  split
  next h => rw [List.filter_eq_self.mpr (by simpa using h)]
  next h => rw [List.filter_eq_nil_iff.mpr (by simpa using h), List.append_nil]

/-- Diagnostics about one file, under the path of the first of them. -/
def groupOf? : List Diagnostic → Option FileGroup
  | [] => none
  | d :: ds => some ⟨d.path, d :: ds⟩

theorem groupOf?_eq_some_iff {ds : List Diagnostic} {g : FileGroup} :
    groupOf? ds = some g ↔ ds.head?.map Diagnostic.path = some g.path ∧ g.diagnostics = ds := by
  cases ds with
  | nil => simp [groupOf?]
  | cons d ds =>
    obtain ⟨path, diagnostics⟩ := g
    simp [groupOf?, eq_comm]

/-- One more diagnostic comes last in its group, or begins one. -/
theorem groupOf?_append_singleton (ds : List Diagnostic) (d : Diagnostic) :
    groupOf? (ds ++ [d]) =
      match groupOf? ds with
      | none => some ⟨d.path, [d]⟩
      | some g => some { g with diagnostics := g.diagnostics ++ [d] } := by
  cases ds <;> rfl

/-- **Under some parts are filed the diagnostics with these parts, as they came.** -/
theorem getElem?_foldl_addToGroup (parts : List Path.Part) (ds : List Diagnostic) :
    (ds.foldl addToGroup ∅)[parts]? = groupOf? (about parts ds) := by
  induction ds using List.reverseRecOn with
  | nil => rfl
  | append_singleton ds d ih =>
    rw [List.foldl_append, List.foldl_cons, List.foldl_nil, addToGroup, Std.TreeMap.getElem?_alter,
      about_append_singleton]
    simp only [Std.LawfulEqCmp.compare_eq_iff_eq]
    split
    next hparts =>
      rw [hparts, ih]
      exact (groupOf?_append_singleton _ d).symm
    next => exact ih

/-! ## The groups of a list -/

/-- What the groups of a list of diagnostics are. -/
structure IsGrouping (ds : List Diagnostic) (groups : List FileGroup) : Prop where
  /-- The files are in the order of their paths, and no file has two groups. -/
  ascending : groups.Pairwise fun g h => g.path.cmp h.path = .lt
  /-- A group has what the list has about its file, in this order. -/
  diagnostics_eq : ∀ g ∈ groups, g.diagnostics = ds.filter fun d => d.path.same g.path
  /-- It stands under the spelling that occurs first. -/
  first : ∀ g ∈ groups, g.diagnostics.head?.map Diagnostic.path = some g.path
  /-- Every diagnostic is about a file that has a group. -/
  covers : ∀ d ∈ ds, ∃ g ∈ groups, d.path.same g.path = true

/-- What is filed under some parts is a group with these parts. -/
theorem getElem?_foldl_addToGroup_eq_some {parts : List Path.Part} {ds : List Diagnostic}
    {g : FileGroup} (h : (ds.foldl addToGroup ∅)[parts]? = some g) :
    g.path.parts = parts ∧ g.diagnostics = about parts ds ∧
      g.diagnostics.head?.map Diagnostic.path = some g.path := by
  rw [getElem?_foldl_addToGroup, groupOf?_eq_some_iff] at h
  obtain ⟨hfirst, hdiagnostics⟩ := h
  refine ⟨?_, hdiagnostics, hdiagnostics ▸ hfirst⟩
  obtain ⟨d, hd, hpath⟩ := Option.map_eq_some_iff.mp hfirst
  rw [← hpath]
  exact beq_iff_eq.mp (List.mem_filter.mp (List.mem_of_head? hd)).2

/-- The groups are in the order of the parts that they are filed under. -/
theorem map_parts_groupByFile (ds : List Diagnostic) :
    (groupByFile ds).map (fun g => g.path.parts) = (ds.foldl addToGroup ∅).keys := by
  rw [groupByFile, Table.values_eq_map_snd_toList, List.map_map,
    ← Std.TreeMap.map_fst_toList_eq_keys]
  refine List.map_congr_left fun entry hentry => ?_
  exact (getElem?_foldl_addToGroup_eq_some
    (Std.TreeMap.mem_toList_iff_getElem?_eq_some.mp hentry)).1

theorem getElem?_of_mem_groupByFile {ds : List Diagnostic} {g : FileGroup}
    (hg : g ∈ groupByFile ds) : ∃ parts : List Path.Part,
      (ds.foldl addToGroup ∅)[parts]? = some g := by
  rw [groupByFile, Table.values_eq_map_snd_toList, List.mem_map] at hg
  obtain ⟨⟨parts, _⟩, hentry, rfl⟩ := hg
  exact ⟨parts, Std.TreeMap.mem_toList_iff_getElem?_eq_some.mp hentry⟩

/-- **The groups of a list are one for each file**, in the order of the files. -/
theorem isGrouping_groupByFile (ds : List Diagnostic) : IsGrouping ds (groupByFile ds) where
  ascending := by
    have hkeys : ((groupByFile ds).map fun g => g.path.parts).Pairwise
        fun p q => compare p q = .lt := by
      rw [map_parts_groupByFile]
      exact Std.TreeMap.ordered_keys
    exact List.pairwise_map.mp hkeys
  diagnostics_eq := by
    intro g hg
    obtain ⟨parts, hparts⟩ := getElem?_of_mem_groupByFile hg
    obtain ⟨rfl, hdiagnostics, -⟩ := getElem?_foldl_addToGroup_eq_some hparts
    exact hdiagnostics
  first := by
    intro g hg
    obtain ⟨parts, hparts⟩ := getElem?_of_mem_groupByFile hg
    exact (getElem?_foldl_addToGroup_eq_some hparts).2.2
  covers := by
    intro d hd
    have hmem : d ∈ about d.path.parts ds := List.mem_filter.mpr ⟨hd, beq_self_eq_true _⟩
    obtain ⟨g, hg⟩ : ∃ g, (ds.foldl addToGroup ∅)[d.path.parts]? = some g := by
      rw [getElem?_foldl_addToGroup]
      cases hds : about d.path.parts ds with
      | nil =>
        rw [hds] at hmem
        cases hmem
      | cons e es => exact ⟨_, rfl⟩
    refine ⟨g, ?_, beq_iff_eq.mpr (getElem?_foldl_addToGroup_eq_some hg).1.symm⟩
    rw [groupByFile, Table.values_eq_map_snd_toList]
    exact List.mem_map_of_mem (Std.TreeMap.mem_toList_iff_getElem?_eq_some.mpr hg)

/-! ## The groups put together -/

namespace IsGrouping

variable {ds : List Diagnostic} {groups : List FileGroup}

theorem same_of_mem (h : IsGrouping ds groups) {g : FileGroup} (hg : g ∈ groups) {d : Diagnostic}
    (hd : d ∈ g.diagnostics) : d.path.parts = g.path.parts := by
  rw [h.diagnostics_eq g hg] at hd
  exact beq_iff_eq.mp (List.mem_filter.mp hd).2

/-- Groups of other files have nothing about a file. -/
theorem filter_flatMap_eq_nil (h : IsGrouping ds groups) {p : Path} {others : List FileGroup}
    (hsub : others ⊆ groups) (hothers : ∀ g ∈ others, g.path.parts ≠ p.parts) :
    (others.flatMap FileGroup.diagnostics).filter (fun d => d.path.same p) = [] := by
  refine List.filter_eq_nil_iff.mpr fun d hd hsame => ?_
  obtain ⟨g, hg, hd⟩ := List.mem_flatMap.mp hd
  exact hothers g hg ((h.same_of_mem (hsub hg) hd).symm.trans (beq_iff_eq.mp hsame))

/-- **The groups have about every file what the list has about it, in the same order.** -/
theorem filter_flatMap (h : IsGrouping ds groups) (p : Path) :
    (groups.flatMap FileGroup.diagnostics).filter (fun d => d.path.same p) =
      ds.filter fun d => d.path.same p := by
  by_cases hgroup : ∃ g ∈ groups, g.path.parts = p.parts
  · obtain ⟨g, hg, hparts⟩ := hgroup
    obtain ⟨before, after, rfl⟩ := List.append_of_mem hg
    obtain ⟨-, hafter, hbefore⟩ := List.pairwise_append.mp h.ascending
    have hne : ∀ {q r : Path}, q.cmp r = .lt → q.parts ≠ r.parts := by
      intro q r hlt heq
      rw [Path.cmp_eq_iff.mpr heq] at hlt
      cases hlt
    have hown : g.diagnostics.filter (fun d => d.path.same p) = g.diagnostics :=
      List.filter_eq_self.mpr fun d hd =>
        beq_iff_eq.mpr ((h.same_of_mem hg hd).trans hparts)
    have hwhole : g.diagnostics = ds.filter fun d => d.path.same p := by
      rw [h.diagnostics_eq g hg]
      simp only [Path.same, hparts]
    rw [List.flatMap_append, List.flatMap_cons, List.filter_append, List.filter_append, hown,
      h.filter_flatMap_eq_nil (List.subset_append_left _ _) fun o ho =>
        hparts ▸ hne (hbefore o ho g List.mem_cons_self),
      h.filter_flatMap_eq_nil (fun o ho => List.mem_append_right _ (List.mem_cons_of_mem _ ho))
        fun o ho => hparts ▸ (hne (List.rel_of_pairwise_cons hafter ho)).symm,
      List.nil_append, List.append_nil, hwhole]
  · rw [h.filter_flatMap_eq_nil (List.Subset.refl _) fun g hg hparts => hgroup ⟨g, hg, hparts⟩]
    refine (List.filter_eq_nil_iff.mpr fun d hd hsame => hgroup ?_).symm
    obtain ⟨g, hg, hcovers⟩ := h.covers d hd
    exact ⟨g, hg, (beq_iff_eq.mp hcovers).symm.trans (beq_iff_eq.mp hsame)⟩

/-- **The groups have every diagnostic exactly once.** -/
theorem perm_flatMap (h : IsGrouping ds groups) :
    (groups.flatMap FileGroup.diagnostics).Perm ds := by
  refine List.perm_iff_count.mpr fun d => ?_
  have hcount : ∀ es : List Diagnostic,
      es.count d = (es.filter fun e => e.path.same d.path).count d := fun es =>
    (List.count_filter (p := fun e : Diagnostic => e.path.same d.path)
      (beq_self_eq_true _)).symm
  rw [hcount, h.filter_flatMap, ← hcount]

/-- The groups are in the order of the files. -/
theorem pairwise_flatMap (h : IsGrouping ds groups) :
    (groups.flatMap FileGroup.diagnostics).Pairwise fun a b => (a.path.cmp b.path).isLE = true := by
  refine List.pairwise_flatMap.mpr ⟨fun g hg => ?_, ?_⟩
  · refine List.pairwise_of_forall_mem_list fun a ha b hb => ?_
    rw [Path.cmp_eq_iff.mpr ((h.same_of_mem hg ha).trans (h.same_of_mem hg hb).symm)]
    rfl
  · refine h.ascending.imp_of_mem fun {g g'} hg hg' hlt a ha b hb => ?_
    rw [Path.cmp, h.same_of_mem hg ha, h.same_of_mem hg' hb, ← Path.cmp, hlt]
    rfl

/-- **The groups of a list in the order of the files are its pieces, one behind the other.** -/
theorem flatMap_eq (h : IsGrouping ds groups)
    (hordered : ds.Pairwise fun a b => (a.path.cmp b.path).isLE = true) :
    groups.flatMap FileGroup.diagnostics = ds := by
  have htrans : Std.TransCmp fun a b : Diagnostic => a.path.cmp b.path :=
    inferInstanceAs (Std.TransCmp (compareOn fun d : Diagnostic => d.path.parts))
  refine eq_of_pairwise_of_filter_tied h.pairwise_flatMap hordered fun k => ?_
  have htied : tied (fun a b : Diagnostic => a.path.cmp b.path) k =
      fun d => d.path.same k.path := by
    funext d
    refine Bool.eq_iff_iff.mpr ?_
    rw [tied, beq_iff_eq, Path.cmp_eq_iff, Path.same, beq_iff_eq, eq_comm]
  rw [htied, h.filter_flatMap]

end IsGrouping

/-! ## Sorted reports -/

/-- What is shown of a report is part of it, in its order. -/
theorem shown_sublist (v : View) (r : Report) : (v.shown r).Sublist r.diagnostics := by
  unfold View.shown
  split
  next => exact List.filter_sublist
  next n _ => exact (List.take_sublist n _).trans List.filter_sublist

/-- What is shown of a sorted report is in the order of the files. -/
theorem pairwise_shown_sort (v : View) (r : Report) :
    (v.shown r.sort).Pairwise fun a b => (a.path.cmp b.path).isLE = true := by
  have hsorted : r.sort.diagnostics.Pairwise fun a b => (a.cmp b).isLE = true :=
    List.pairwise_mergeSort (fun _ _ _ => Std.TransCmp.isLE_trans) isLE_total _
  refine (hsorted.sublist (shown_sublist v r.sort)).imp fun h => ?_
  rw [Diagnostic.cmp, Ordering.isLE_then_iff_and, Ordering.isLE_then_iff_and] at h
  exact h.1.1

end StyleAudit.Report
