import StyleAudit.Proofs.Files.Precedence
import StyleAudit.Proofs.Outcomes

/-!
# `./` in front of a path

`a.css` and `./a.css` are the same file, and they are different paths: the second begins with a
part of its own.  A path that is made of names (`IsNormal`) has the same pieces with `./` in front
and one more before them, so what stands above it is the same, spelled likewise, except that the
directory that everything is in stands there twice (`IsNormal.ancestors_dotted`).

An ignore file further down is asked about the path as seen from its own directory, where the two
spellings look alike (`IsNormal.relativeTo?_dotted`).  The one in the directory that everything is
in is asked about the path as it looks from there and then about the path with `./` in front; and
the patterns of the filter itself are matched against the path as it was given.  So the spelling
shows in these two places and in no other.  The main result is `admits_dotted`; that the answer
does depend on the spelling is `exists_admits_dotted_ne`.
-/

namespace StyleAudit

namespace Path

/-- The path with `./` in front. -/
def dotted (p : Path) : Path := ⟨'.' :: '/' :: p.text⟩

/-- The path without the idle pieces at its end. -/
def trimmed (p : Path) : Path := ofReversed p.isAbsolute p.pieces.reverse

/-- The path is made of names: it has at least one part, and all of its parts are names. -/
structure IsNormal (p : Path) : Prop where
  relative : p.isAbsolute = false
  nonempty : p.parts ≠ []
  named : ∀ part ∈ p.parts, ∃ n, part = .name n

theorem IsNormal.of_parts {p : Path} (names : List Text) (hne : names ≠ [])
    (h : p.parts = names.map .name) : p.IsNormal where
  relative := by
    cases habsolute : p.isAbsolute with
    | false => rfl
    | true =>
      obtain ⟨n, names, rfl⟩ := List.exists_cons_of_ne_nil hne
      rw [parts, habsolute] at h
      cases h
  nonempty := by
    rw [h]
    exact mt List.map_eq_nil_iff.mp hne
  named := by
    rw [h]
    intro part hpart
    obtain ⟨n, -, rfl⟩ := List.mem_map.mp hpart
    exact ⟨n, rfl⟩

/-- The piece that `./` begins with. -/
def dot : Piece := ⟨['.'], some .current⟩

section Dotted

variable {p : Path}

theorem isAbsolute_dotted (p : Path) : p.dotted.isAbsolute = false := rfl

theorem pieces_dotted_eq (p : Path) :
    p.dotted.pieces = dot :: (Text.splitOn '/' p.text).map Piece.ofText := by
  have hsplit : Text.splitOn '/' p.dotted.text = ['.'] :: Text.splitOn '/' p.text :=
    Text.splitOn_append_cons (p := ['.']) (by decide) p.text
  rw [pieces_of_not_isAbsolute (isAbsolute_dotted p), hsplit, relativePieces]
  rfl

/-- A path that is made of names begins with one. -/
theorem IsNormal.exists_pieces_eq (hp : p.IsNormal) :
    ∃ t ts, Text.splitOn '/' p.text = t :: ts ∧ t ≠ [] ∧ t ≠ ['.'] := by
  obtain ⟨t, ts, hsplit⟩ := List.exists_cons_of_ne_nil (Text.splitOn_ne_nil '/' p.text)
  have hjoin := Text.joinWith_splitOn '/' p.text
  rw [hsplit] at hjoin
  refine ⟨t, ts, hsplit, ?_, ?_⟩
  · rintro rfl
    cases ts with
    | nil =>
      have hempty : p.text = [] := hjoin.symm
      refine hp.nonempty ?_
      rw [parts, hp.relative, pieces_of_not_isAbsolute hp.relative, hempty]
      rfl
    | cons u us =>
      have habsolute := hp.relative
      rw [isAbsolute, ← hjoin] at habsolute
      cases habsolute
  · rintro rfl
    obtain ⟨n, hn⟩ := hp.named .current (by
      rw [parts, pieces_of_not_isAbsolute hp.relative, hsplit, hp.relative]
      exact List.mem_cons_self)
    cases hn

theorem IsNormal.pieces_eq (hp : p.IsNormal) :
    p.pieces = (Text.splitOn '/' p.text).map Piece.ofText := by
  obtain ⟨t, ts, hsplit, -, hdot⟩ := hp.exists_pieces_eq
  rw [pieces_of_not_isAbsolute hp.relative, hsplit]
  exact relativePieces.eq_2 _ fun u hu => hdot (List.cons.inj hu).1

/-- **In front of a path that is made of names, `./` is one more piece.** -/
theorem IsNormal.pieces_dotted (hp : p.IsNormal) : p.dotted.pieces = dot :: p.pieces := by
  rw [pieces_dotted_eq, hp.pieces_eq]

theorem IsNormal.parts_dotted (hp : p.IsNormal) : p.dotted.parts = .current :: p.parts := by
  rw [parts, isAbsolute_dotted, hp.pieces_dotted, parts, hp.relative]
  rfl

theorem IsNormal.fileName?_dotted (hp : p.IsNormal) : p.dotted.fileName? = p.fileName? := by
  obtain ⟨part, rest, hparts⟩ := List.exists_cons_of_ne_nil hp.nonempty
  rw [fileName?, fileName?, hp.parts_dotted, hparts, List.getLast?_cons_cons]

end Dotted

/-! ## Directories above it -/

/-- A directory above a path, as it is above the path with `./` in front. -/
def dottedDir (dir : Path) : Path := if dir.text = [] then ⟨['.']⟩ else dir.dotted

section Directories

variable {p : Path}

/-- A piece that stands for a part is not empty. -/
theorem IsNormal.text_ne_nil (hp : p.IsNormal) {piece : Piece} (h : piece ∈ p.pieces)
    (hidle : piece.isIdle = false) : piece.text ≠ [] := by
  rw [hp.pieces_eq] at h
  obtain ⟨t, -, rfl⟩ := List.mem_map.mp h
  intro hempty
  have hnil : t = [] := hempty
  rw [hnil] at hidle
  cases hidle

/-- The piece in front shows in a path that pieces make. -/
theorem ofReversed_append_dot {reversed : List Piece}
    (h : ∀ piece ∈ reversed, piece.isIdle = false → piece.text ≠ []) :
    ofReversed false (reversed ++ [dot]) = dottedDir (ofReversed false reversed) := by
  have hdrop : (reversed ++ [dot]).dropWhile Piece.isIdle =
      reversed.dropWhile Piece.isIdle ++ [dot] := by
    rw [List.dropWhile_append]
    split
    next hempty => rw [List.isEmpty_iff.mp hempty]; rfl
    next => rfl
  rw [ofReversed_eq, ofReversed_eq, hdrop, List.reverse_append, List.reverse_singleton,
    List.singleton_append]
  cases hkept : reversed.dropWhile Piece.isIdle with
  | nil => rfl
  | cons piece before =>
    have hidle : piece.isIdle = false := by
      have hhead := List.head?_dropWhile_not Piece.isIdle reversed
      rw [hkept] at hhead
      simpa using hhead
    have hmem : piece ∈ reversed := by
      refine (List.dropWhile_sublist Piece.isIdle).subset ?_
      rw [hkept]
      exact List.mem_cons_self
    have htext : piece.text ∈ (piece :: before).reverse.map Piece.text :=
      List.mem_map_of_mem (List.mem_reverse.mpr List.mem_cons_self)
    have hjoin := Text.joinWith_ne_nil '/' htext (h piece hmem hidle)
    have hdir : (ofPieces false (piece :: before).reverse).text ≠ [] := hjoin
    rw [dottedDir, if_neg hdir, ofPieces, List.map_cons,
      Text.joinWith.eq_3 _ _ _ (List.ne_nil_of_mem htext)]
    rfl

theorem ancestorsOfReversed_append_dot {reversed : List Piece}
    (h : ∀ piece ∈ reversed, piece.isIdle = false → piece.text ≠ []) :
    ancestorsOfReversed false (reversed ++ [dot]) =
      (ancestorsOfReversed false reversed).map dottedDir ++ [⟨[]⟩] := by
  induction reversed with
  | nil => rfl
  | cons piece before ih =>
    have hbefore : ∀ other ∈ before, other.isIdle = false → other.text ≠ [] := fun other hother =>
      h other (List.mem_cons_of_mem _ hother)
    rw [List.cons_append, ancestorsOfReversed, ancestorsOfReversed]
    split
    next => exact ih hbefore
    next =>
      rw [ih hbefore, ofReversed_append_dot hbefore]
      rfl

/-- **With `./` in front a path has the same directories above it, spelled likewise, and one
more**: the directory that everything is in stands there twice, as `.` and as the empty path. -/
theorem IsNormal.ancestors_dotted (hp : p.IsNormal) :
    p.dotted.ancestors = p.ancestors.map dottedDir ++ [⟨[]⟩] := by
  rw [ancestors, ancestors, isAbsolute_dotted, hp.relative, hp.pieces_dotted, List.reverse_cons]
  exact ancestorsOfReversed_append_dot fun piece hpiece =>
    hp.text_ne_nil (List.mem_reverse.mp hpiece)

/-- A path that is made of names begins with a piece that stands for a part. -/
theorem IsNormal.exists_pieces_eq_cons (hp : p.IsNormal) :
    ∃ piece rest, p.pieces = piece :: rest ∧ piece.isIdle = false := by
  obtain ⟨t, ts, hsplit, hne, hdot⟩ := hp.exists_pieces_eq
  refine ⟨Piece.ofText t, ts.map Piece.ofText, by rw [hp.pieces_eq, hsplit]; rfl, ?_⟩
  rw [Piece.isIdle, Piece.ofText, if_neg (by simp [hne, hdot])]
  split
  · rfl
  · rfl

theorem exists_ancestorsOfReversed_eq {piece : Piece} (hidle : piece.isIdle = false)
    (reversed : List Piece) :
    ∃ dirs, ancestorsOfReversed false (reversed ++ [piece]) = dirs ++ [⟨[]⟩] := by
  induction reversed with
  | nil =>
    refine ⟨[], ?_⟩
    rw [List.nil_append, ancestorsOfReversed, if_neg (by rw [hidle]; exact Bool.false_ne_true)]
    rfl
  | cons other before ih =>
    obtain ⟨dirs, hdirs⟩ := ih
    rw [List.cons_append, ancestorsOfReversed, hdirs]
    split
    · exact ⟨dirs, rfl⟩
    · exact ⟨_ :: dirs, rfl⟩

/-- The directory furthest up is the empty path. -/
theorem IsNormal.exists_ancestors_eq (hp : p.IsNormal) :
    ∃ dirs, p.ancestors = dirs ++ [⟨[]⟩] := by
  obtain ⟨piece, rest, hpieces, hidle⟩ := hp.exists_pieces_eq_cons
  rw [ancestors, hp.relative, hpieces, List.reverse_cons]
  exact exists_ancestorsOfReversed_eq hidle rest.reverse

theorem IsNormal.parts_dottedDir (hp : p.IsNormal) {dir : Path} (h : dir ∈ p.ancestors) :
    (dottedDir dir).parts = .current :: dir.parts := by
  obtain ⟨before, hbefore, rfl⟩ := exists_ofReversed_of_mem h
  have hdotted : (before ++ [dot]).reverse <+: p.dotted.pieces := by
    rw [hp.pieces_dotted, List.reverse_append]
    exact List.cons_prefix_cons.mpr ⟨rfl, hbefore⟩
  have htexts : ∀ piece ∈ before, piece.isIdle = false → piece.text ≠ [] := fun piece hpiece =>
    hp.text_ne_nil (hbefore.subset (List.mem_reverse.mpr hpiece))
  rw [parts_ofReversed hbefore, hp.relative, ← ofReversed_append_dot htexts]
  refine (parts_ofReversed (p := p.dotted) hdotted).trans ?_
  rw [List.reverse_append]
  rfl

/-- What is seen from a directory above is the same, whether or not `./` is in front of both. -/
theorem IsNormal.relativeTo?_dotted (hp : p.IsNormal) {dir : Path} (h : dir ∈ p.ancestors) :
    p.dotted.relativeTo? (dottedDir dir) = p.relativeTo? dir := by
  have hparts := hp.parts_dottedDir h
  obtain ⟨piece, rest, hpieces, hidle⟩ := hp.exists_pieces_eq_cons
  have hwhole : p.pieces.dropWhile Piece.isIdle = p.pieces := by
    rw [hpieces, List.dropWhile_cons_of_neg (by rw [hidle]; exact Bool.false_ne_true)]
  have hdrop : dropParts (dir.parts.length + 1) (dot :: p.pieces) =
      dropParts dir.parts.length p.pieces := rfl
  rw [relativeTo?, relativeTo?, hparts, hp.parts_dotted, isAbsolute_dotted, hp.relative,
    hp.pieces_dotted, List.length_cons, List.isPrefixOf_cons_cons_self, List.isEmpty_cons]
  simp only [Bool.false_eq_true, if_false, Nat.sub_zero, hdrop]
  by_cases hempty : dir.parts = []
  · rw [hempty, List.isEmpty_nil, if_pos rfl, List.length_nil, dropParts, hwhole]
  · rw [List.isEmpty_eq_false_iff.mpr hempty]
    rfl

/-- Seen from the empty path, a path is what it is without the idle pieces at its end. -/
theorem IsNormal.relativeTo?_nil (hp : p.IsNormal) :
    p.relativeTo? ⟨[]⟩ = some p.trimmed ∧ p.dotted.relativeTo? ⟨[]⟩ = some p.trimmed.dotted := by
  refine ⟨rfl, ?_⟩
  have htext : p.trimmed.text ≠ [] := by
    intro hempty
    have hparts : p.trimmed.parts = p.parts := by
      rw [trimmed, parts_ofReversed reverse_reverse_prefix, List.reverse_reverse, parts_eq]
    have hnil : p.trimmed = ⟨[]⟩ := congrArg Path.mk hempty
    rw [hnil] at hparts
    exact hp.nonempty hparts.symm
  show some (ofReversed false p.dotted.pieces.reverse) = some p.trimmed.dotted
  rw [hp.pieces_dotted, List.reverse_cons, ofReversed_append_dot fun piece hpiece =>
    hp.text_ne_nil (List.mem_reverse.mp hpiece)]
  rw [trimmed, hp.relative] at htext ⊢
  rw [dottedDir, if_neg htext]

end Directories

/-! ## Files beside it -/

/-- A name in a directory, with `./` in front of the directory or of both. -/
theorem join_dottedDir (dir : Path) {name : Text} (h : Text.startsWith '/' name = false) :
    (dottedDir dir).join name = (dir.join name).dotted := by
  obtain ⟨text⟩ := dir
  cases text with
  | nil =>
    rw [dottedDir, if_pos rfl, join, join, h]
    rfl
  | cons c rest =>
    have hend : Text.endsIn '/' ('.' :: '/' :: c :: rest) = Text.endsIn '/' (c :: rest) := by
      rw [Text.endsIn, Text.endsIn, List.getLast?_cons_cons, List.getLast?_cons_cons]
    rw [dottedDir, if_neg (List.cons_ne_nil c rest), join, join, h, dotted, hend]
    cases Text.endsIn '/' (c :: rest) <;> rfl

theorem isAbsolute_of_mem_ancestors {p dir : Path} (h : dir ∈ p.ancestors) :
    dir.isAbsolute = p.isAbsolute := by
  obtain ⟨before, hbefore, rfl⟩ := exists_ofReversed_of_mem h
  exact isAbsolute_ofPieces (prefix_of_dropWhile hbefore)

/-- A name in a directory that is not absolute leads on from there. -/
theorem join_of_relative {dir : Path} {name : Text} (hdir : dir.isAbsolute = false)
    (hname : name ≠ []) (h : Text.startsWith '/' name = false) :
    (dir.join name).text ≠ [] ∧ (dir.join name).isAbsolute = false := by
  rw [join, h]
  simp only [Bool.false_eq_true, if_false]
  cases htext : dir.text with
  | nil => exact ⟨hname, h⟩
  | cons c rest =>
    rw [isAbsolute, htext] at hdir
    split
    · exact ⟨List.cons_ne_nil _ _, hdir⟩
    · exact ⟨List.cons_ne_nil _ _, hdir⟩

end Path

namespace Node

/-- `./` in front of a path leads nowhere else. -/
theorem find_dotted (tree : Node) {p : Path} (hne : p.text ≠ []) (hp : p.isAbsolute = false) :
    tree.find p.dotted = tree.find p := by
  have hsplit : Text.splitOn '/' p.dotted.text = ['.'] :: Text.splitOn '/' p.text :=
    Text.splitOn_append_cons (p := ['.']) (by decide) p.text
  rw [find, find, hp, Path.isAbsolute_dotted, List.isEmpty_eq_false_iff.mpr hne, hsplit]
  obtain ⟨t, ts, hts⟩ := List.exists_cons_of_ne_nil (Text.splitOn_ne_nil '/' p.text)
  rw [hts]
  cases tree with
  | file bytes => rfl
  | folder entries => rfl

end Node

namespace PathFilter

variable {tree : Node} {name : Text} {p : Path}

theorem toOption_readIgnoreFile_of_find {file file' : Path} (h : tree.find file = tree.find file') :
    (readIgnoreFile tree file).toOption = (readIgnoreFile tree file').toOption := by
  have htext : tree.readText file = tree.readText file' := by
    rw [Node.readText, Node.readText, Node.read, Node.read, h]
  rw [readIgnoreFile, readIgnoreFile, Node.hasPath, Node.hasPath, h, htext]
  split
  · cases tree.readText file' with
    | ok t => rfl
    | error fault => rfl
  · rfl

/-- A tree that is a file has no ignore files. -/
theorem readIgnoreFile_file (bytes : List UInt8) (file : Path) :
    readIgnoreFile (.file bytes) file = .ok [] := by
  have hnowhere : (Node.file bytes).hasPath file = false := by
    rw [Node.hasPath, Node.find]
    split
    · rfl
    · obtain ⟨piece, rest, hsplit⟩ :=
        List.exists_cons_of_ne_nil (Text.splitOn_ne_nil '/' file.text)
      rw [hsplit]
      rfl
  rw [readIgnoreFile, hnowhere]
  rfl

/-- The ignore file of a directory is the same, whether or not `./` is in front. -/
theorem toOption_readIgnoreFile_dottedDir {dir : Path} (hdir : dir.isAbsolute = false)
    (hname : name ≠ []) :
    (readIgnoreFile tree ((Path.dottedDir dir).join name)).toOption =
      (readIgnoreFile tree (dir.join name)).toOption := by
  cases hstart : Text.startsWith '/' name with
  | true =>
    rw [Path.join, Path.join, hstart]
    rfl
  | false =>
    obtain ⟨hne, hrelative⟩ := Path.join_of_relative hdir hname hstart
    rw [Path.join_dottedDir dir hstart]
    exact toOption_readIgnoreFile_of_find (Node.find_dotted tree hne hrelative)

/-- An ignore file without a name is its directory, which is there under the longer spelling
only. -/
theorem toOption_readIgnoreFile_cases (tree : Node) (name : Text) :
    (∀ dir : Path, dir.isAbsolute = false →
      (readIgnoreFile tree ((Path.dottedDir dir).join name)).toOption =
        (readIgnoreFile tree (dir.join name)).toOption) ∨
    name = [] ∧ (readIgnoreFile tree ((Path.dottedDir ⟨[]⟩).join name)).toOption = none := by
  by_cases hname : name = []
  · cases tree with
    | file bytes =>
      exact .inl fun dir _ => by rw [readIgnoreFile_file, readIgnoreFile_file]
    | folder entries =>
      subst hname
      exact .inr ⟨rfl, rfl⟩
  · exact .inl fun dir hdir => toOption_readIgnoreFile_dottedDir hdir hname

/-- The patterns of the ignore file that is asked once more, if it can be read. -/
def rootPatterns? (f : PathFilter) (tree : Node) : Option (List FilterPattern) :=
  match f.ignoreName with
  | none => some []
  | some name => (readIgnoreFile tree ((Path.dottedDir ⟨[]⟩).join name)).toOption

/-- **With `./` in front the ignore files are asked likewise, and the one in the directory that
everything is in is then asked once more**, about the path with `./` in front. -/
theorem toOption_passesIgnoreFiles_dotted {f : PathFilter} (hp : p.IsNormal) :
    (f.passesIgnoreFiles tree p.dotted).toOption =
      (f.passesIgnoreFiles tree p).toOption.bind fun included =>
        (f.rootPatterns? tree).map fun patterns => lastWord patterns p.trimmed.dotted included := by
  rw [passesIgnoreFiles, passesIgnoreFiles, rootPatterns?]
  cases f.ignoreName with
  | none => rfl
  | some name =>
    obtain ⟨dirs, hdirs⟩ := hp.exists_ancestors_eq
    rcases toOption_readIgnoreFile_cases tree name with hsame | ⟨-, hunreadable⟩
    · have hask : ∀ included, ∀ dir ∈ p.ancestors,
          (askIgnoreFile tree name p.dotted included (Path.dottedDir dir)).toOption =
            (askIgnoreFile tree name p included dir).toOption := by
        intro included dir hdir
        have hread := hsame dir ((Path.isAbsolute_of_mem_ancestors hdir).trans hp.relative)
        rw [askIgnoreFile, askIgnoreFile, Outcomes.toOption_bind, Outcomes.toOption_bind, hread,
          hp.relativeTo?_dotted hdir]
      have hagain : ∀ included,
          ([⟨[]⟩].foldlM (askIgnoreFile tree name p.dotted) included).toOption =
            (readIgnoreFile tree ((Path.dottedDir ⟨[]⟩).join name)).toOption.map fun patterns =>
              lastWord patterns p.trimmed.dotted included := by
        intro included
        simp only [List.foldlM_cons, List.foldlM_nil, bind_pure]
        rw [askIgnoreFile, Outcomes.toOption_bind, hsame _ rfl, hp.relativeTo?_nil.2]
        cases readIgnoreFile tree ((⟨[]⟩ : Path).join name) <;> rfl
      simp only [hp.ancestors_dotted, List.foldlM_append, Outcomes.toOption_bind, hagain,
        Outcomes.toOption_foldlM_map hask]
    · have hmem : Path.dottedDir ⟨[]⟩ ∈ p.dotted.ancestors := by
        rw [hp.ancestors_dotted, hdirs]
        exact List.mem_append_left _ (List.mem_map_of_mem (List.mem_append_right _
          List.mem_cons_self))
      simp only [hunreadable]
      refine (Outcomes.toOption_foldlM_eq_none hmem (fun included => ?_) true).trans ?_
      · rw [askIgnoreFile, Outcomes.toOption_bind, hunreadable]
        rfl
      · cases (List.foldlM (askIgnoreFile tree name p) true p.ancestors).toOption <;> rfl

/-- What has been asked already says nothing new. -/
theorem lastWord_of_passesIgnoreFiles {f : PathFilter} (hp : p.IsNormal)
    (hname : f.ignoreName ≠ some []) {included : Bool}
    (h : f.passesIgnoreFiles tree p = .ok included) :
    ∃ patterns, f.rootPatterns? tree = some patterns ∧
      lastWord patterns p.trimmed included = included := by
  rw [passesIgnoreFiles] at h
  rw [rootPatterns?]
  cases hignore : f.ignoreName with
  | none => exact ⟨[], rfl, rfl⟩
  | some name =>
    have hne : name ≠ [] := fun hempty => hname (hempty ▸ hignore)
    obtain ⟨dirs, hdirs⟩ := hp.exists_ancestors_eq
    simp only [hignore, hdirs, List.foldlM_append] at h
    obtain ⟨before, -, h⟩ := Outcomes.bind_eq_ok_iff.mp h
    simp only [List.foldlM_cons, List.foldlM_nil, bind_pure] at h
    rw [askIgnoreFile] at h
    obtain ⟨patterns, hread, h⟩ := Outcomes.bind_eq_ok_iff.mp h
    rw [hp.relativeTo?_nil.1] at h
    have hword : lastWord patterns p.trimmed before = included := Except.ok.inj h
    have hroot : (readIgnoreFile tree ((Path.dottedDir ⟨[]⟩).join name)).toOption =
        some patterns := by
      rw [toOption_readIgnoreFile_dottedDir rfl hne, hread]
      rfl
    refine ⟨patterns, hroot, ?_⟩
    rw [← hword, lastWord_eq, lastWord_eq]
    cases lastMatch? patterns p.trimmed <;> rfl

theorem lastWord_congr {patterns : List FilterPattern} {path path' : Path}
    (h : ∀ q ∈ patterns, q.appliesTo path = q.appliesTo path') (otherwise : Bool) :
    lastWord patterns path otherwise = lastWord patterns path' otherwise := by
  rw [lastWord_eq, lastWord_eq, lastMatch?, lastMatch?, List.filter_congr h]

/-- A pattern without a slash is matched against the name of the file. -/
theorem appliesTo_of_notMem {q : FilterPattern} (h : '/' ∉ q.text) (path : Path) :
    q.appliesTo path = (path.fileName?.map (Glob.isMatch q.glob)).getD false := by
  have hend : Text.endsIn '/' q.text = false := by
    rw [Text.endsIn, beq_eq_false_iff_ne]
    exact fun hlast => h (List.mem_of_getLast? hlast)
  have hin : q.text.contains '/' = false := by simpa using h
  rw [FilterPattern.appliesTo, hend, if_neg Bool.false_ne_true]
  split
  next hstart => exact absurd (hstart ▸ List.mem_cons_self) h
  next => rw [hin, if_neg Bool.false_ne_true]

/-! ## The two spellings -/

/-- **What becomes of a path when `./` is put in front of it.**  The patterns of the filter are
matched against the longer spelling.  If they let that in, the ignore files are asked as before,
and then the one in the directory that everything is in is asked once more, about the longer
spelling.  So the answer is the same if the patterns of the filter and those of that ignore file
match both spellings or neither, as a pattern without a slash always does. -/
theorem admits_dotted {f : PathFilter} {tree : Node} {p : Path} (hp : p.IsNormal) :
    ((f.admits tree p.dotted).toOption =
      if lastWord f.patterns p.dotted true then
        (f.passesIgnoreFiles tree p).toOption.bind fun included =>
          (f.rootPatterns? tree).map fun patterns => lastWord patterns p.trimmed.dotted included
      else some false) ∧
    (f.ignoreName ≠ some [] → (∀ q ∈ f.patterns, q.appliesTo p.dotted = q.appliesTo p) →
      (∀ patterns, f.rootPatterns? tree = some patterns →
        ∀ q ∈ patterns, q.appliesTo p.trimmed.dotted = q.appliesTo p.trimmed) →
      (f.admits tree p.dotted).toOption = (f.admits tree p).toOption) ∧
    ∀ q : FilterPattern, '/' ∉ q.text → q.appliesTo p.dotted = q.appliesTo p := by
  have hexact : (f.admits tree p.dotted).toOption =
      if lastWord f.patterns p.dotted true then
        (f.passesIgnoreFiles tree p).toOption.bind fun included =>
          (f.rootPatterns? tree).map fun patterns => lastWord patterns p.trimmed.dotted included
      else some false := by
    rw [admits]
    split
    · exact toOption_passesIgnoreFiles_dotted hp
    · rfl
  refine ⟨hexact, fun hname hown hroot => ?_, fun q hq => ?_⟩
  · rw [hexact, admits, lastWord_congr hown]
    split
    · cases hpasses : f.passesIgnoreFiles tree p with
      | error e => rfl
      | ok included =>
        obtain ⟨patterns, hpatterns, hsame⟩ := lastWord_of_passesIgnoreFiles hp hname hpasses
        rw [hpatterns]
        show some (lastWord patterns p.trimmed.dotted included) = some included
        rw [lastWord_congr (hroot patterns hpatterns), hsame]
    · rfl
  · rw [appliesTo_of_notMem hq, appliesTo_of_notMem hq, hp.fileName?_dotted]

/-- A tree that shows the second asking: the ignore file shuts `a.css` out everywhere and lets
`s/a.css` in again, which says nothing about `./s/a.css`. -/
theorem admits_dotted_askedTwice :
    let tree := Node.folder
      [(".cssignore".toList, .file (Utf8.encode "**/a.css\n!s/a.css\n".toList)),
        ("s".toList, .folder [("a.css".toList, .file [])])]
    let f : PathFilter := ⟨[], some ".cssignore".toList, ["css".toList]⟩
    let p : Path := ⟨"s/a.css".toList⟩
    p.IsNormal ∧ (f.admits tree p).toOption = some true ∧
      (f.admits tree p.dotted).toOption = some false := by
  intro tree f p
  have hp : p.IsNormal :=
    .of_parts ["s".toList, "a.css".toList] (List.cons_ne_nil _ _) (by decide +kernel)
  refine ⟨hp, by decide +kernel, ?_⟩
  rw [(admits_dotted hp).1]
  decide +kernel

/-- A pattern with a slash inside, for everything below a directory. -/
def vendorPattern : FilterPattern :=
  ⟨"vendor/**".toList, "vendor/".toList.map .literal ++ [.directories], false⟩

/-- A pattern with a slash inside leaves out the shorter spelling only. -/
theorem exists_admits_dotted_ne :
    ¬ ∀ (patterns : List Text) (f : PathFilter), ofPatterns patterns none = .ok f →
      ∀ (tree : Node) (p : Path), p.IsNormal →
        (f.admits tree p.dotted).toOption = (f.admits tree p).toOption := by
  intro hall
  have hparse : parsePattern "vendor/**".toList = .ok vendorPattern :=
    Outcomes.eq_ok_of_toOption (by decide +kernel)
  have hbuilt : ofPatterns ["vendor/**".toList] none =
      .ok ⟨[vendorPattern], none, ["css".toList]⟩ := by
    rw [ofPatterns, List.mapM_cons, hparse]
    rfl
  have hnormal : (⟨"vendor/a.css".toList⟩ : Path).IsNormal :=
    .of_parts ["vendor".toList, "a.css".toList] (List.cons_ne_nil _ _) (by decide +kernel)
  have hsame := hall _ _ hbuilt (.folder []) _ hnormal
  revert hsame
  decide +kernel

end PathFilter
end StyleAudit
