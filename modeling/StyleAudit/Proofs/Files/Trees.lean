import StyleAudit.Files.Tree
import StyleAudit.Proofs.Files.Ancestors
import StyleAudit.Proofs.Text.ByteOrder

/-!
# Names that lead through a directory tree

A directory gives everything in it a name of its own and lists it in the order of the names
(`IsTree`).  So what is in a tree is known from the names that lead there (`follow?`), and the
names that lead to its files (`trails`) are known before any of them is followed:

* `mem_trails_iff` --- `trails` lists the names that lead to files, and nothing else;
* `pairwise_trails` --- it lists them depth first, by the bytes of the names;
* `isTree_addFile`, `isTree_addFolder` --- every tree that is built file by file is one.
-/

namespace StyleAudit.Node

/-- What a directory can name something in it. -/
structure IsName (name : Text) : Prop where
  ne_nil : name ≠ []
  ne_current : name ≠ ['.']
  ne_parent : name ≠ ['.', '.']
  notMem : '/' ∉ name

instance : DecidablePred IsName := fun name =>
  decidable_of_iff (name ≠ [] ∧ name ≠ ['.'] ∧ name ≠ ['.', '.'] ∧ '/' ∉ name)
    ⟨fun ⟨hne, hcurrent, hparent, hnot⟩ => ⟨hne, hcurrent, hparent, hnot⟩,
      fun h => ⟨h.ne_nil, h.ne_current, h.ne_parent, h.notMem⟩⟩

/-- Everything in a directory has a name of its own and stands in the order of the names. -/
inductive IsTree : Node → Prop where
  | file (bytes : List UInt8) : IsTree (file bytes)
  | folder {entries : List (Text × Node)} (named : ∀ e ∈ entries, IsName e.1)
      (sorted : entries.Pairwise fun a b => compare a.1 b.1 = .lt)
      (trees : ∀ e ∈ entries, IsTree e.2) : IsTree (folder entries)

/-! ## Following names -/

/-- What has the name in a directory. -/
def child? : Node → Text → Option Node
  | file _, _ => none
  | folder entries, name => entries.lookup name

/-- What names lead to from a node. -/
def follow? : Node → List Text → Option Node
  | node, [] => some node
  | node, name :: trail => (node.child? name).bind fun child => child.follow? trail

mutual

/-- The names that lead to all files at or below a node, depth first, in the order of the
entries. -/
def trails : Node → List (List Text)
  | file _ => [[]]
  | folder entries => trailsOf entries

/-- The names that lead to all files at or below the entries of a directory. -/
def trailsOf : List (Text × Node) → List (List Text)
  | [] => []
  | (name, node) :: rest => node.trails.map (name :: ·) ++ trailsOf rest

end

theorem trailsOf_eq (entries : List (Text × Node)) :
    trailsOf entries = entries.flatMap fun e => e.2.trails.map (e.1 :: ·) := by
  induction entries with
  | nil => rfl
  | cons e rest ih => rw [trailsOf, ih, List.flatMap_cons]

theorem trails_folder (entries : List (Text × Node)) :
    (folder entries).trails = entries.flatMap fun e => e.2.trails.map (e.1 :: ·) := by
  rw [trails, trailsOf_eq]

theorem lookup_eq_some_iff {entries : List (Text × Node)}
    (h : entries.Pairwise fun a b => compare a.1 b.1 = .lt) {name : Text} {node : Node} :
    entries.lookup name = some node ↔ (name, node) ∈ entries := by
  rw [List.lookup_eq_some_iff]
  constructor
  · rintro ⟨before, after, rfl, -⟩
    exact List.mem_append_right _ List.mem_cons_self
  · intro hmem
    obtain ⟨before, after, rfl⟩ := List.append_of_mem hmem
    refine ⟨before, after, rfl, fun e he => ?_⟩
    have hlt := (List.pairwise_append.mp h).2.2 e he (name, node) List.mem_cons_self
    rw [bne_iff_ne]
    intro heq
    rw [Std.compare_eq_iff_eq.mpr heq.symm] at hlt
    cases hlt

/-- **What is listed are the names that lead to files.** -/
theorem mem_trails_iff {node : Node} (h : node.IsTree) {trail : List Text} :
    trail ∈ node.trails ↔
      (∀ name ∈ trail, IsName name) ∧ ∃ bytes, node.follow? trail = some (file bytes) := by
  induction h generalizing trail with
  | file bytes =>
    rw [trails, List.mem_singleton]
    constructor
    · rintro rfl
      exact ⟨fun name hname => absurd hname List.not_mem_nil, bytes, rfl⟩
    · rintro ⟨-, other, hfollow⟩
      cases trail with
      | nil => rfl
      | cons name trail => cases hfollow
  | @folder entries named sorted trees ih =>
    rw [trails_folder, List.mem_flatMap]
    constructor
    · rintro ⟨⟨name, node⟩, hmem, htrail⟩
      obtain ⟨rest, hrest, rfl⟩ := List.mem_map.mp htrail
      obtain ⟨hnames, bytes, hfollow⟩ := (ih _ hmem).mp hrest
      refine ⟨List.forall_mem_cons.mpr ⟨named _ hmem, hnames⟩, bytes, ?_⟩
      rw [follow?, child?, (lookup_eq_some_iff sorted).mpr hmem]
      exact hfollow
    · rintro ⟨hnames, bytes, hfollow⟩
      cases trail with
      | nil => cases hfollow
      | cons name rest =>
        rw [follow?, Option.bind_eq_some_iff] at hfollow
        obtain ⟨node, hchild, hfollow⟩ := hfollow
        have hmem : (name, node) ∈ entries := (lookup_eq_some_iff sorted).mp hchild
        exact ⟨_, hmem, List.mem_map_of_mem
          ((ih _ hmem).mpr ⟨fun n hn => hnames n (List.mem_cons_of_mem _ hn), bytes, hfollow⟩)⟩

/-- **The names are listed depth first, those in one directory in the order of their bytes.** -/
theorem pairwise_trails {node : Node} (h : node.IsTree) :
    node.trails.Pairwise fun a b => a.map Utf8.encode < b.map Utf8.encode := by
  induction h with
  | file bytes => exact List.pairwise_singleton _ _
  | @folder entries named sorted trees ih =>
    rw [trails_folder, List.pairwise_flatMap]
    refine ⟨fun e he => ?_, sorted.imp fun {a b} hab => ?_⟩
    · rw [List.pairwise_map]
      refine (ih e he).imp fun {x y} hxy => ?_
      rw [List.map_cons, List.map_cons]
      exact List.cons_lt_cons_iff.mpr (.inr ⟨rfl, hxy⟩)
    · intro x hx y hy
      obtain ⟨x, -, rfl⟩ := List.mem_map.mp hx
      obtain ⟨y, -, rfl⟩ := List.mem_map.mp hy
      rw [List.map_cons, List.map_cons]
      exact List.cons_lt_cons_iff.mpr (.inl (Utf8.encode_lt_of_compare hab))

/-! ## Building -/

section Building

variable {name : Text} {node leaf tree : Node} {entries : List (Text × Node)}

theorem mem_setEntry {e : Text × Node} (h : e ∈ setEntry name node entries) :
    e = (name, node) ∨ e ∈ entries := by
  induction entries with
  | nil => exact .inl (List.mem_singleton.mp h)
  | cons other rest ih =>
    rw [setEntry] at h
    split at h
    · exact List.mem_cons.mp h
    · exact (List.mem_cons.mp h).imp_right (List.mem_cons_of_mem _)
    · rcases List.mem_cons.mp h with rfl | h
      · exact .inr List.mem_cons_self
      · exact (ih h).imp_right (List.mem_cons_of_mem _)

theorem pairwise_setEntry (h : entries.Pairwise fun a b => compare a.1 b.1 = .lt) :
    (setEntry name node entries).Pairwise fun a b => compare a.1 b.1 = .lt := by
  induction entries with
  | nil => exact List.pairwise_singleton _ _
  | cons other rest ih =>
    obtain ⟨hother, hrest⟩ := List.pairwise_cons.mp h
    rw [setEntry]
    split
    next hlt =>
      refine List.pairwise_cons.mpr ⟨List.forall_mem_cons.mpr ⟨hlt, fun e he => ?_⟩, h⟩
      exact Std.TransCmp.lt_trans hlt (hother e he)
    next heq =>
      refine List.pairwise_cons.mpr ⟨fun e he => ?_, hrest⟩
      rw [Std.compare_eq_iff_eq.mp heq]
      exact hother e he
    next hgt =>
      refine List.pairwise_cons.mpr ⟨fun e he => ?_, ih hrest⟩
      rcases mem_setEntry he with rfl | he
      · exact Std.OrientedCmp.lt_of_gt hgt
      · exact hother e he

/-- A directory stays one when a tree is put in it under a name. -/
theorem isTree_setEntry (h : (folder entries).IsTree) (hname : IsName name)
    (hnode : node.IsTree) : (folder (setEntry name node entries)).IsTree := by
  cases h with
  | folder named sorted trees =>
    refine .folder (fun e he => ?_) (pairwise_setEntry sorted) (fun e he => ?_)
    · rcases mem_setEntry he with rfl | he
      · exact hname
      · exact named e he
    · rcases mem_setEntry he with rfl | he
      · exact hnode
      · exact trees e he

theorem isTree_folder_nil : (folder []).IsTree :=
  .folder (fun _ he => absurd he List.not_mem_nil) .nil (fun _ he => absurd he List.not_mem_nil)

theorem isTree_entries (h : tree.IsTree) : (folder tree.entries).IsTree := by
  cases h with
  | file bytes => exact isTree_folder_nil
  | folder named sorted trees => exact .folder named sorted trees

theorem isTree_of_lookup (h : (folder entries).IsTree) (hlookup : entries.lookup name = some node) :
    node.IsTree := by
  cases h with
  | folder named sorted trees => exact trees _ ((lookup_eq_some_iff sorted).mp hlookup)

theorem isTree_put (hleaf : leaf.IsTree) {names : List Text} (hnames : ∀ n ∈ names, IsName n)
    (h : tree.IsTree) : (put leaf names tree).IsTree := by
  induction names generalizing tree with
  | nil => exact hleaf
  | cons name rest ih =>
    obtain ⟨hname, hrest⟩ := List.forall_mem_cons.mp hnames
    have hentries := isTree_entries h
    refine isTree_setEntry hentries hname (ih hrest ?_)
    cases hlookup : tree.entries.lookup name with
    | none => exact isTree_folder_nil
    | some child => exact isTree_of_lookup hentries hlookup

/-- What a path leads to in a tree is one. -/
theorem isTree_of_descend {pieces : List Text} {above : List Node} {node found : Node}
    (habove : ∀ dir ∈ above, dir.IsTree) (h : node.IsTree)
    (hfound : descend above node pieces = .ok found) : found.IsTree := by
  fun_induction descend above node pieces with
  | case1 above node => exact Except.ok.inj hfound ▸ h
  | case2 => cases hfound
  | case3 _ _ _ _ _ ih => exact ih habove h hfound
  | case4 => cases hfound
  | case5 _ _ _ dir further ih =>
    obtain ⟨hdir, hfurther⟩ := List.forall_mem_cons.mp habove
    exact ih hfurther hdir hfound
  | case6 => cases hfound
  | case7 _ _ _ _ _ _ child hlookup ih =>
    exact ih (List.forall_mem_cons.mpr ⟨h, habove⟩) (isTree_of_lookup h hlookup) hfound

/-- A piece that stands for a name is that name. -/
theorem isName_of_mem_pieces {p : Path} {piece : Path.Piece} (h : piece ∈ p.pieces)
    (hname : piece.part? = some (.name name)) : IsName name := by
  have hnot := Path.notMem_text_of_mem_pieces h
  have hpiece : piece = Path.Piece.ofText piece.text :=
    Path.eq_ofText_of_mem_pieces h (by rw [hname]; exact nofun)
  rw [hpiece, Path.Piece.ofText] at hname
  split at hname
  next => cases hname
  next hidle =>
    split at hname
    next => cases hname
    next hparent =>
      cases hname
      exact ⟨fun h => hidle (.inl h), fun h => hidle (.inr h), hparent, hnot⟩

theorem isName_of_mem_namesOf {p : Path} (h : name ∈ namesOf p) : IsName name := by
  rw [namesOf, List.mem_filterMap] at h
  obtain ⟨part, hpart, hname⟩ := h
  split at hname
  next n =>
    cases hname
    rw [Path.parts, List.mem_append] at hpart
    rcases hpart with hroot | hpart
    · split at hroot
      · cases List.mem_singleton.mp hroot
      · cases hroot
    · obtain ⟨piece, hmem, hpiece⟩ := List.mem_filterMap.mp hpart
      exact isName_of_mem_pieces hmem hpiece
  next => cases hname

/-- **A file that is added to a tree makes a tree.** -/
theorem isTree_addFile (h : tree.IsTree) (p : Path) (bytes : List UInt8) :
    (tree.addFile p bytes).IsTree :=
  isTree_put (.file bytes) (fun _ hname => isName_of_mem_namesOf hname) h

/-- **A directory that is added to a tree makes a tree.** -/
theorem isTree_addFolder (h : tree.IsTree) (p : Path) : (tree.addFolder p).IsTree := by
  rw [addFolder]
  split
  next es hfind =>
    rw [find] at hfind
    split at hfind
    next => cases hfind
    next =>
      have hfolder := isTree_of_descend (fun dir hdir => absurd hdir List.not_mem_nil) h hfind
      exact isTree_put hfolder (fun _ hname => isName_of_mem_namesOf hname) h
  next => exact isTree_put isTree_folder_nil (fun _ hname => isName_of_mem_namesOf hname) h

end Building

end StyleAudit.Node
