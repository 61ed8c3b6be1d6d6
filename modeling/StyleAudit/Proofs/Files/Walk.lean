import Mathlib.Data.List.Nodup
import StyleAudit.Files.PathFilter
import StyleAudit.Proofs.Files.Trees
import StyleAudit.Proofs.Outcomes
import StyleAudit.Proofs.Text.Rows

/-!
# Which files a walk finds

A walk goes through everything below a path and keeps the stylesheets that the filter admits.  Its
paths are the one it starts from with names put behind it (`Path.below`).

The walk never looks a path up: it puts the names together as it goes.  That each of its paths
leads where the walk was is `toOption_find_below`, and that no two of them are the same is
`below_injective`.  So the walk can be told by what is in the tree and no longer by what it does
(`findFiles_walks`): it finds the files that names lead to, each once, depth first by the bytes of
the names, and it fails exactly if the filter has no answer for one of them.
-/

namespace StyleAudit

open Node (IsName)

namespace Path

/-- The path that names lead to from another one. -/
def below (root : Path) (trail : List Text) : Path := trail.foldl join root

/-- What stands before a name that is put behind the path. -/
def lead (p : Path) : Text :=
  if p.text.isEmpty || p.text.endsIn '/' then p.text else p.text ++ ['/']

variable {name : Text} {trail : List Text}

theorem text_join (p : Path) (h : IsName name) : (p.join name).text = p.lead ++ name := by
  have hstart : Text.startsWith '/' name = false := by
    rw [Text.startsWith, beq_eq_false_iff_ne]
    exact fun hhead => h.notMem (List.mem_of_head? hhead)
  rw [join, hstart, lead]
  simp only [Bool.false_eq_true, if_false]
  split
  · rfl
  · rw [List.append_assoc]
    rfl

theorem text_prefix_lead (p : Path) : p.text <+: p.lead := by
  rw [lead]
  split
  · exact List.prefix_rfl
  · exact List.prefix_append _ _

/-- A name that is put behind a path comes behind its pieces.  A slash at the end of the path
stands for an idle piece, in whose place the name comes. -/
theorem exists_splitOn_join (p : Path) (h : IsName name) :
    ∃ front qs : List Text, (qs = [] ∨ qs = [[]]) ∧ Text.splitOn '/' p.text = front ++ qs ∧
      Text.splitOn '/' (p.join name).text = front ++ [name] := by
  rw [text_join p h, lead]
  have hname : Text.splitOn '/' name = [name] := Text.splitOn_of_notMem h.notMem
  cases hend : Text.endsIn '/' p.text with
  | true =>
    obtain ⟨front, hfront⟩ := List.getLast?_eq_some_iff.mp (beq_iff_eq.mp hend)
    refine ⟨Text.splitOn '/' front, [[]], .inr rfl, ?_, ?_⟩
    · rw [hfront, Text.splitOn_append_cons_append]
      rfl
    · rw [Bool.or_true, if_pos rfl, hfront, List.append_assoc, List.singleton_append,
        Text.splitOn_append_cons_append, hname]
  | false =>
    by_cases hempty : p.text = []
    · refine ⟨[], [[]], .inr rfl, by rw [hempty]; rfl, ?_⟩
      rw [hempty]
      exact hname
    · refine ⟨Text.splitOn '/' p.text, [], .inl rfl, (List.append_nil _).symm, ?_⟩
      rw [List.isEmpty_eq_false_iff.mpr hempty, Bool.false_or, if_neg Bool.false_ne_true,
        List.append_assoc, List.singleton_append, Text.splitOn_append_cons_append, hname]

/-- Behind a path that ends in a name there is a slash before the next one. -/
theorem lead_join (p : Path) (h : IsName name) : (p.join name).lead = p.lead ++ name ++ ['/'] := by
  have hne : (p.lead ++ name) ≠ [] := List.append_ne_nil_of_right_ne_nil _ h.ne_nil
  have hend : Text.endsIn '/' (p.lead ++ name) = false := by
    rw [Text.endsIn, List.getLast?_append_of_ne_nil _ h.ne_nil, beq_eq_false_iff_ne]
    exact fun hlast => h.notMem (List.mem_of_getLast? hlast)
  rw [lead, text_join p h, hend, List.isEmpty_eq_false_iff.mpr hne]
  rfl

theorem text_below (p : Path) (hne : trail ≠ []) (h : ∀ n ∈ trail, IsName n) :
    (p.below trail).text = p.lead ++ Text.joinWith '/' trail := by
  induction trail generalizing p with
  | nil => exact absurd rfl hne
  | cons name rest ih =>
    obtain ⟨hname, hrest⟩ := List.forall_mem_cons.mp h
    cases rest with
    | nil => exact text_join p hname
    | cons other rest =>
      have hbelow := ih (p.join name) (List.cons_ne_nil _ _) hrest
      rw [lead_join p hname] at hbelow
      rw [Text.joinWith.eq_3 _ _ _ (List.cons_ne_nil _ _)]
      refine hbelow.trans ?_
      simp only [List.append_assoc, List.singleton_append]

/-- **Different names lead to different paths.** -/
theorem below_injective (p : Path) {other : List Text} (h : ∀ n ∈ trail, IsName n)
    (hother : ∀ n ∈ other, IsName n) (heq : p.below trail = p.below other) : trail = other := by
  -- Names put behind a path make it longer.
  have hlonger : ∀ names : List Text, names ≠ [] → (∀ n ∈ names, IsName n) →
      p.below names ≠ p := by
    intro names hne hnames hsame
    obtain ⟨name, rest, rfl⟩ := List.exists_cons_of_ne_nil hne
    have hjoin : Text.joinWith '/' (name :: rest) ≠ [] :=
      Text.joinWith_ne_nil '/' List.mem_cons_self (hnames name List.mem_cons_self).ne_nil
    have hlength := congrArg (fun q : Path => q.text.length) hsame
    have hlead := (text_prefix_lead p).length_le
    have hpos := List.length_pos_of_ne_nil hjoin
    simp only [text_below p hne hnames, List.length_append] at hlength
    omega
  cases trail with
  | nil =>
    cases other with
    | nil => rfl
    | cons n ns => exact absurd heq.symm (hlonger _ (List.cons_ne_nil n ns) hother)
  | cons m ms =>
    cases other with
    | nil => exact absurd heq (hlonger _ (List.cons_ne_nil m ms) h)
    | cons n ns =>
      have htext := congrArg Path.text heq
      rw [text_below p (List.cons_ne_nil _ _) h,
        text_below p (List.cons_ne_nil _ _) hother] at htext
      have hsplit := congrArg (Text.splitOn '/') (List.append_cancel_left htext)
      rwa [Text.splitOn_joinWith (List.cons_ne_nil _ _) fun n hn => (h n hn).notMem,
        Text.splitOn_joinWith (List.cons_ne_nil _ _) fun n hn => (hother n hn).notMem] at hsplit

end Path

namespace Node

/-! ## The paths of a walk -/

mutual

theorem files_eq (p : Path) : ∀ node : Node, node.files p = node.trails.map p.below
  | file _ => rfl
  | folder entries => filesOf_eq p entries

theorem filesOf_eq (p : Path) : ∀ entries : List (Text × Node),
    filesOf p entries = (trailsOf entries).map p.below
  | [] => rfl
  | (name, node) :: rest => by
    rw [filesOf, files_eq (p.join name) node, filesOf_eq p rest, trailsOf, List.map_append,
      List.map_map]
    rfl

end

theorem toOption_descend_append {qs qs' : List Text} {next : Node → Option Node}
    (h : ∀ above node, (descend above node qs).toOption =
      (descend above node qs').toOption.bind next) (ps : List Text) :
    ∀ above node, (descend above node (ps ++ qs)).toOption =
      (descend above node (ps ++ qs')).toOption.bind next := by
  induction ps with
  | nil => exact h
  | cons piece ps ih =>
    intro above node
    rw [List.cons_append, List.cons_append]
    cases node with
    | file bytes => rfl
    | folder entries =>
      simp only [descend]
      split
      next => exact ih above (folder entries)
      next =>
        split
        next =>
          cases above with
          | nil => rfl
          | cons dir further => exact ih further dir
        next =>
          cases entries.lookup piece with
          | none => rfl
          | some child => exact ih (folder entries :: above) child

/-- A name that is put behind a path leads to what has that name there. -/
theorem toOption_descend_name {name : Text} (hname : IsName name) {qs : List Text}
    (hqs : qs = [] ∨ qs = [[]]) (above : List Node) (node : Node) :
    (descend above node [name]).toOption =
      (descend above node qs).toOption.bind fun dir => dir.child? name := by
  cases node with
  | file bytes => rcases hqs with rfl | rfl <;> rfl
  | folder entries =>
    have hhere : descend above (folder entries) qs = .ok (folder entries) := by
      rcases hqs with rfl | rfl <;> rfl
    simp only [hhere, descend, hname.ne_nil, hname.ne_current, hname.ne_parent, or_self, if_false]
    show _ = entries.lookup name
    cases entries.lookup name <;> rfl

theorem find_eq_descend {tree : Node} {p : Path} (hne : p.text ≠ []) (h : p.isAbsolute = false) :
    tree.find p = descend [] tree (Text.splitOn '/' p.text) := by
  rw [find, h, List.isEmpty_eq_false_iff.mpr hne]
  rfl

theorem toOption_find_join (tree : Node) {p : Path} (hne : p.text ≠ []) {name : Text}
    (hname : IsName name) : (tree.find (p.join name)).toOption =
      (tree.find p).toOption.bind fun dir => dir.child? name := by
  have htext := Path.text_join p hname
  obtain ⟨more, hmore⟩ := Path.text_prefix_lead p
  have hjoin : (p.join name).text ≠ [] := by
    rw [htext]
    exact List.append_ne_nil_of_right_ne_nil _ hname.ne_nil
  have hsame : (p.join name).isAbsolute = p.isAbsolute := by
    rw [Path.isAbsolute, Path.isAbsolute, htext, ← hmore, List.append_assoc, Text.startsWith,
      Text.startsWith, List.head?_append_of_ne_nil _ hne]
  cases habsolute : p.isAbsolute with
  | true =>
    rw [find, find, hsame, habsolute, Bool.or_true, Bool.or_true]
    rfl
  | false =>
    obtain ⟨front, qs, hqs, hp, hsplit⟩ := Path.exists_splitOn_join p hname
    rw [find_eq_descend hjoin (hsame.trans habsolute), find_eq_descend hne habsolute, hsplit, hp]
    exact toOption_descend_append (toOption_descend_name hname hqs) _ [] tree

/-- **A path that is put together from names leads where the names lead.** -/
theorem toOption_find_below (tree : Node) {p : Path} (hne : p.text ≠ []) {trail : List Text}
    (h : ∀ n ∈ trail, IsName n) : (tree.find (p.below trail)).toOption =
      (tree.find p).toOption.bind fun dir => dir.follow? trail := by
  induction trail generalizing p with
  | nil => exact (Option.bind_fun_some _).symm
  | cons name rest ih =>
    obtain ⟨hname, hrest⟩ := List.forall_mem_cons.mp h
    have hjoin : (p.join name).text ≠ [] := by
      rw [Path.text_join p hname]
      exact List.append_ne_nil_of_right_ne_nil _ hname.ne_nil
    have hbelow := ih hjoin hrest
    rw [toOption_find_join tree hne hname, Option.bind_assoc] at hbelow
    exact hbelow

/-- The names lead from a path to a file. -/
structure HasFileAt (tree : Node) (root : Path) (trail : List Text) : Prop where
  hasRoot : tree.hasPath root = true
  named : ∀ name ∈ trail, IsName name
  leads : tree.isFile (root.below trail) = true

theorem isFile_iff {tree : Node} {p : Path} :
    tree.isFile p = true ↔ ∃ bytes, (tree.find p).toOption = some (file bytes) := by
  rw [isFile]
  split
  next bytes hfind => rw [hfind]; exact ⟨fun _ => ⟨bytes, rfl⟩, fun _ => rfl⟩
  next hnot =>
    refine ⟨fun h => absurd h Bool.false_ne_true, ?_⟩
    rintro ⟨bytes, h⟩
    cases hfind : tree.find p with
    | error fault => rw [hfind] at h; cases h
    | ok node =>
      rw [hfind] at h
      cases h
      exact absurd hfind (hnot bytes)

theorem text_ne_nil_of_find {tree node : Node} {p : Path} (h : tree.find p = .ok node) :
    p.text ≠ [] := by
  intro hempty
  rw [find, hempty] at h
  cases h

theorem isTree_of_find {tree node : Node} {p : Path} (htree : tree.IsTree)
    (h : tree.find p = .ok node) : node.IsTree := by
  rw [find] at h
  split at h
  · cases h
  · exact isTree_of_descend (fun dir hdir => absurd hdir List.not_mem_nil) htree h

/-- **The files that names lead to are those that are listed.** -/
theorem hasFileAt_iff {tree node : Node} (htree : tree.IsTree) {root : Path}
    (h : tree.find root = .ok node) {trail : List Text} :
    tree.HasFileAt root trail ↔ trail ∈ node.trails := by
  rw [mem_trails_iff (isTree_of_find htree h)]
  have hroot : tree.hasPath root = true := by rw [hasPath, h]; rfl
  have hfile : (∀ n ∈ trail, IsName n) → (tree.isFile (root.below trail) = true ↔
      ∃ bytes, node.follow? trail = some (file bytes)) := by
    intro hnames
    rw [isFile_iff, toOption_find_below tree (text_ne_nil_of_find h) hnames, h]
    rfl
  constructor
  · rintro ⟨-, hnames, hleads⟩
    exact ⟨hnames, (hfile hnames).mp hleads⟩
  · rintro ⟨hnames, hfollow⟩
    exact ⟨hroot, hnames, (hfile hnames).mpr hfollow⟩

end Node

namespace PathFilter

open Node

variable {f : PathFilter} {tree node : Node} {root : Path}

/-- The names that lead to the stylesheets below a node that the filter admits. -/
def keptTrails (f : PathFilter) (tree : Node) (root : Path) (node : Node) : List (List Text) :=
  node.trails.filter fun trail =>
    Outcomes.isYes (f.admits tree (root.below trail)) && f.isStylesheet (root.below trail)

/-- What a walk finds, told by the names that it goes through. -/
theorem findFiles_eq_ok_iff (h : tree.find root = .ok node) {found : List Path} :
    f.findFiles tree root = .ok found ↔
      (∀ trail ∈ node.trails, f.isStylesheet (root.below trail) = true →
        ∃ b, f.admits tree (root.below trail) = .ok b) ∧
      found = (f.keptTrails tree root node).map root.below := by
  simp only [findFiles, h, filterPaths, Outcomes.filterM_eq_ok_iff, files_eq, List.filter_map,
    List.filter_filter, List.forall_mem_map, List.mem_filter, and_imp]
  exact Iff.rfl

theorem mem_keptTrails_iff {trail : List Text} : trail ∈ f.keptTrails tree root node ↔
    trail ∈ node.trails ∧ f.isStylesheet (root.below trail) = true ∧
      f.admits tree (root.below trail) = .ok true := by
  rw [keptTrails, List.mem_filter, Bool.and_eq_true, Outcomes.isYes_iff, and_comm (b := _ = true)]

theorem pairwise_keptTrails (hnode : node.IsTree) :
    (f.keptTrails tree root node).Pairwise fun a b => a.map Utf8.encode < b.map Utf8.encode :=
  (pairwise_trails hnode).filter _

theorem nodup_keptTrails (hnode : node.IsTree) : (f.keptTrails tree root node).Nodup := by
  refine (pairwise_keptTrails hnode).imp fun {a b} hlt heq => ?_
  rw [heq] at hlt
  exact List.lt_irrefl _ hlt

theorem isName_of_mem_keptTrails (hnode : node.IsTree) {trail : List Text}
    (h : trail ∈ f.keptTrails tree root node) : ∀ n ∈ trail, IsName n :=
  ((mem_trails_iff hnode).mp (mem_keptTrails_iff.mp h).1).1

/-- Different trails are different paths, so no path is found twice. -/
theorem nodup_map_keptTrails (hnode : node.IsTree) :
    ((f.keptTrails tree root node).map root.below).Nodup :=
  (nodup_keptTrails hnode).map_on fun _ ha _ hb =>
    Path.below_injective root (isName_of_mem_keptTrails hnode ha)
      (isName_of_mem_keptTrails hnode hb)

/-- The filter leaves out nothing of what it admitted. -/
theorem filterPaths_keptTrails :
    f.filterPaths tree ((f.keptTrails tree root node).map root.below) =
      .ok ((f.keptTrails tree root node).map root.below) := by
  have hadmitted : ∀ p ∈ (f.keptTrails tree root node).map root.below,
      f.admits tree p = .ok true :=
    List.forall_mem_map.mpr fun trail ht => (mem_keptTrails_iff.mp ht).2.2
  rw [filterPaths, Outcomes.filterM_eq_ok_iff]
  refine ⟨fun p hp => ⟨true, hadmitted p hp⟩, (List.filter_eq_self.mpr fun p hp => ?_).symm⟩
  exact Outcomes.isYes_iff.mpr (hadmitted p hp)

/-! ## What a walk finds -/

/-- **What a walk finds.**  There is an answer exactly if the filter has one for every stylesheet
that names lead to from the path.  Then it is the list of those that the filter admits, each once,
depth first, the entries of a directory in the order of the bytes of their names; and the filter
leaves nothing of it out. -/
theorem findFiles_walks (htree : tree.IsTree) (f : PathFilter) (root : Path) :
    ((∃ found, f.findFiles tree root = .ok found) ↔
      ∀ trail, tree.HasFileAt root trail → f.isStylesheet (root.below trail) = true →
        ∃ b, f.admits tree (root.below trail) = .ok b) ∧
    ∀ found, f.findFiles tree root = .ok found →
      (∃ trails : List (List Text), found = trails.map root.below ∧
        (trails.Pairwise fun a b => a.map Utf8.encode < b.map Utf8.encode) ∧
        ∀ trail, trail ∈ trails ↔ tree.HasFileAt root trail ∧
          f.isStylesheet (root.below trail) = true ∧ f.admits tree (root.below trail) = .ok true) ∧
      found.Nodup ∧ f.filterPaths tree found = .ok found := by
  cases h : tree.find root with
  | error fault =>
    have hnothing : ∀ trail, ¬ tree.HasFileAt root trail := by
      intro trail hfile
      have hroot := hfile.hasRoot
      rw [hasPath, h] at hroot
      cases hroot
    have hfound : f.findFiles tree root = .ok [] := by rw [findFiles, h]
    rw [hfound]
    refine ⟨⟨fun _ trail hfile => absurd hfile (hnothing trail), fun _ => ⟨[], rfl⟩⟩, ?_⟩
    rintro found ⟨⟩
    exact ⟨⟨[], rfl, .nil, fun trail => ⟨nofun, fun hfile => absurd hfile.1 (hnothing trail)⟩⟩,
      .nil, rfl⟩
  | ok node =>
    have hnode := isTree_of_find htree h
    simp only [findFiles_eq_ok_iff h, hasFileAt_iff htree h]
    refine ⟨⟨?_, fun hall => ⟨_, hall, rfl⟩⟩, ?_⟩
    · rintro ⟨_, hall, -⟩
      exact hall
    rintro found ⟨-, rfl⟩
    exact ⟨⟨_, rfl, pairwise_keptTrails hnode, fun trail => mem_keptTrails_iff⟩,
      nodup_map_keptTrails hnode, filterPaths_keptTrails⟩

/-- Two stylesheets, one of which an ignore file leaves out, and a file that is no stylesheet. -/
def twoSheets : Node :=
  ((((folder []).addFile ⟨"s/b.css".toList⟩ []).addFile ⟨"s/a.css".toList⟩ []).addFile
    ⟨"s/a.txt".toList⟩ []).addFile ⟨".cssignore".toList⟩ (Utf8.encode "b.css\n".toList)

/-- A walk through a tree that holds one admitted stylesheet. -/
theorem findFiles_walks_twoSheets :
    let f : PathFilter := ⟨[], some ".cssignore".toList, ["css".toList]⟩
    let root : Path := ⟨".".toList⟩
    twoSheets.IsTree ∧ f.findFiles twoSheets root = .ok [⟨"./s/a.css".toList⟩] ∧
      ∀ trail, trail = ["s".toList, "a.css".toList] ↔ twoSheets.HasFileAt root trail ∧
        f.isStylesheet (root.below trail) = true ∧
          f.admits twoSheets (root.below trail) = .ok true := by
  intro f root
  have htree : twoSheets.IsTree :=
    isTree_addFile (isTree_addFile (isTree_addFile (isTree_addFile isTree_folder_nil _ _) _ _) _ _)
      _ _
  have hfound : f.findFiles twoSheets root = .ok [⟨"./s/a.css".toList⟩] :=
    Outcomes.eq_ok_of_toOption (by decide +kernel)
  obtain ⟨⟨trails, htrails, -, hmem⟩, -, -⟩ := (findFiles_walks htree f root).2 _ hfound
  obtain ⟨trail, rfl, -⟩ := List.map_eq_singleton_iff.mp htrails.symm
  have hin : ["s".toList, "a.css".toList] ∈ [trail] :=
    (hmem _).mpr ⟨⟨by decide +kernel, by decide, by decide +kernel⟩, by decide +kernel,
      Outcomes.isYes_iff.mp (by decide +kernel)⟩
  obtain rfl := List.mem_singleton.mp hin
  exact ⟨htree, hfound, fun other => List.mem_singleton.symm.trans (hmem other)⟩

end PathFilter
end StyleAudit
