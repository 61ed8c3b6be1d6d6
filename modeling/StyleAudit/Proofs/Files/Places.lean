import StyleAudit.Proofs.Files.Walk

/-!
# The place a path leads to

A file can be named by many paths: `a.css`, `./a.css` and `s/../a.css` are one file.  What tells
files apart is their place in the tree, the names that lead there from its root.  The place that a
path leads to is known from the path alone (`Path.place`): `..` takes the last name off again, and
pieces that are empty or `.` do nothing.  If the path leads anywhere, it leads to what is at that
place (`follow?_place`), so paths with one place lead to one file.

Names that are put behind a path come behind its place (`place_below`).
-/

namespace StyleAudit

open Node (IsName)

namespace Path

/-- The names that lead to where pieces go on from other names; the last name comes first. -/
def resolve : List Text → List Text → List Text
  | names, [] => names
  | names, piece :: rest =>
    if piece = [] ∨ piece = ['.'] then resolve names rest
    else if piece = ['.', '.'] then resolve names.tail rest
    else resolve (piece :: names) rest

/-- The names that lead to what the path leads to. -/
def place (p : Path) : List Text := (resolve [] (Text.splitOn '/' p.text)).reverse

theorem resolve_append (ps qs : List Text) :
    ∀ names, resolve names (ps ++ qs) = resolve (resolve names ps) qs := by
  induction ps with
  | nil => exact fun _ => rfl
  | cons piece ps ih =>
    intro names
    rw [List.cons_append, resolve, resolve]
    split
    · exact ih names
    · split
      · exact ih names.tail
      · exact ih (piece :: names)

theorem resolve_name {name : Text} (h : IsName name) (names : List Text) :
    resolve names [name] = name :: names := by
  rw [resolve, if_neg (not_or.mpr ⟨h.ne_nil, h.ne_current⟩), if_neg h.ne_parent, resolve]

/-- **A name that is put behind a path comes behind its place.** -/
theorem place_join (p : Path) {name : Text} (h : IsName name) :
    (p.join name).place = p.place ++ [name] := by
  obtain ⟨front, qs, hqs, hp, hjoin⟩ := exists_splitOn_join p h
  have hidle : resolve (resolve [] front) qs = resolve [] front := by
    rcases hqs with rfl | rfl
    · rfl
    · exact if_pos (.inl rfl)
  rw [place, place, hjoin, hp, resolve_append, resolve_append, hidle, resolve_name h,
    List.reverse_cons]

theorem place_below (p : Path) {trail : List Text} (h : ∀ n ∈ trail, IsName n) :
    (p.below trail).place = p.place ++ trail := by
  induction trail generalizing p with
  | nil => exact (List.append_nil _).symm
  | cons name rest ih =>
    obtain ⟨hname, hrest⟩ := List.forall_mem_cons.mp h
    refine (ih (p.join name) hrest).trans ?_
    rw [place_join p hname, List.append_assoc, List.singleton_append]

end Path

namespace Node

/-- The names, the last one first, lead to the node through the directories above it, the nearest
first. -/
inductive Leads (tree : Node) : List Text → List Node → Node → Prop where
  | root : Leads tree [] [] tree
  | into {names : List Text} {above : List Node} {dir child : Node} {name : Text}
      (way : Leads tree names above dir) (hchild : dir.child? name = some child) :
      Leads tree (name :: names) (dir :: above) child

theorem follow?_append (ps qs : List Text) :
    ∀ node : Node, node.follow? (ps ++ qs) = (node.follow? ps).bind fun found => found.follow? qs := by
  induction ps with
  | nil => exact fun _ => rfl
  | cons name ps ih =>
    intro node
    rw [List.cons_append, follow?, follow?]
    cases node.child? name with
    | none => rfl
    | some child => exact ih child

theorem Leads.follow?_eq {tree node : Node} {names : List Text} {above : List Node}
    (h : Leads tree names above node) : tree.follow? names.reverse = some node := by
  induction h with
  | root => rfl
  | @into names above dir child name way hchild ih =>
    rw [List.reverse_cons, follow?_append, ih]
    show (dir.child? name).bind _ = _
    rw [hchild]
    rfl

/-- **Looking a path up keeps to the names**: piece by piece, it is where the names lead. -/
theorem Leads.of_descend {tree : Node} {names pieces : List Text} {above : List Node}
    {node found : Node} (h : Leads tree names above node)
    (hfound : descend above node pieces = .ok found) :
    ∃ above', Leads tree (Path.resolve names pieces) above' found := by
  induction pieces generalizing names above node with
  | nil =>
    cases hfound
    exact ⟨above, h⟩
  | cons piece rest ih =>
    cases node with
    | file bytes => cases hfound
    | folder entries =>
      simp only [descend] at hfound
      rw [Path.resolve]
      split at hfound
      next hidle =>
        rw [if_pos hidle]
        exact ih h hfound
      next hidle =>
        rw [if_neg hidle]
        split at hfound
        next hparent =>
          rw [if_pos hparent]
          cases h with
          | root => cases hfound
          | into way _ => exact ih way hfound
        next hparent =>
          rw [if_neg hparent]
          split at hfound
          next => cases hfound
          next child hchild => exact ih (h.into hchild) hfound

/-- **A path that leads anywhere leads to what is at its place.** -/
theorem follow?_place {tree node : Node} {p : Path} (h : tree.find p = .ok node) :
    tree.follow? p.place = some node := by
  rw [find] at h
  split at h
  · cases h
  · obtain ⟨above, hleads⟩ := Leads.root.of_descend h
    exact hleads.follow?_eq

/-- A file that is named is the one at the place of its path. -/
theorem exists_file_at_place {tree : Node} {p : Path} (h : tree.isFile p = true) :
    ∃ bytes, tree.read p = .ok bytes ∧ tree.follow? p.place = some (file bytes) := by
  obtain ⟨bytes, hfile⟩ := isFile_iff.mp h
  have hfind := Outcomes.eq_ok_of_toOption hfile
  exact ⟨bytes, by rw [read, hfind], follow?_place hfind⟩

end Node
end StyleAudit
