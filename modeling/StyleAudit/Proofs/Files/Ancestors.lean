import Mathlib.Data.List.Basic
import StyleAudit.Files.Path
import StyleAudit.Proofs.Text.Rows

/-!
# The directories above a path

A directory above a path is written with the pieces of the path, up to some place and without the
idle pieces at its end.  Read as a path of its own it has these pieces again (`pieces_ofPieces`),
so it stands for the parts that these pieces stand for.

* `parts_ofReversed` --- the parts of a path that pieces of another one make;
* `exists_parts_append` --- a directory above a path has fewer parts, which the path begins with;
* `pairwise_ancestors` --- of two directories above a path, the one further up has fewer parts;
* `exists_relativeTo?` --- a path can be seen from each of the directories above it.
-/

namespace StyleAudit

/-! ## Pieces put together and cut again -/

/-- Pieces that are put together are cut where they were put together, and each of them where it
has separators of its own. -/
theorem Text.splitOn_joinWith_eq_flatMap {sep : Char} {ps : List Text} (hne : ps ≠ []) :
    splitOn sep (joinWith sep ps) = ps.flatMap (splitOn sep) := by
  induction ps with
  | nil => exact absurd rfl hne
  | cons p ps ih =>
    cases ps with
    | nil => rw [List.flatMap_singleton, joinWith]
    | cons q ps =>
      rw [joinWith.eq_3 _ _ _ (by simp), splitOn_append_cons_append, ih (by simp)]
      exact List.flatMap_cons.symm

/-- Pieces without separators are cut where they were put together. -/
theorem Text.splitOn_joinWith {sep : Char} {ps : List Text} (hne : ps ≠ [])
    (h : ∀ p ∈ ps, sep ∉ p) : splitOn sep (joinWith sep ps) = ps := by
  rw [splitOn_joinWith_eq_flatMap hne, List.flatMap_congr fun p hp => splitOn_of_notMem (h p hp),
    List.flatMap_singleton']

/-- The first of some pieces, put together, are the front of all of them put together. -/
theorem Text.joinWith_prefix (sep : Char) :
    ∀ {ps qs : List Text}, ps <+: qs → joinWith sep ps <+: joinWith sep qs
  | [], _, _ => List.nil_prefix
  | p :: ps, [], h => absurd (List.prefix_nil.mp h) (List.cons_ne_nil p ps)
  | p :: ps, q :: qs, h => by
    obtain ⟨rfl, hrest⟩ := List.cons_prefix_cons.mp h
    cases ps with
    | nil =>
      cases qs with
      | nil => exact List.prefix_rfl
      | cons q' qs =>
        rw [joinWith.eq_3 _ _ _ (List.cons_ne_nil q' qs)]
        exact List.prefix_append _ _
    | cons p' ps =>
      have hqs : qs ≠ [] := List.ne_nil_of_mem (hrest.subset List.mem_cons_self)
      rw [joinWith.eq_3 _ _ _ (List.cons_ne_nil p' ps), joinWith.eq_3 _ _ _ hqs]
      exact (List.prefix_append_right_inj _).mpr
        (List.cons_prefix_cons.mpr ⟨rfl, joinWith_prefix sep hrest⟩)

/-- Each of some pieces stands in all of them put together. -/
theorem Text.infix_joinWith_of_mem (sep : Char) {ps : List Text} {p : Text} (hp : p ∈ ps) :
    p <:+: joinWith sep ps := by
  fun_induction joinWith sep ps with
  | case1 => cases hp
  | case2 q => exact List.mem_singleton.mp hp ▸ List.infix_rfl
  | case3 q ps hne ih =>
    rcases List.mem_cons.mp hp with rfl | hp
    · exact (List.prefix_append _ _).isInfix
    · exact (ih hp).trans ((List.suffix_cons _ _).trans (List.suffix_append _ _)).isInfix

theorem Text.joinWith_ne_nil (sep : Char) {ps : List Text} {p : Text} (hp : p ∈ ps)
    (hne : p ≠ []) : joinWith sep ps ≠ [] := by
  fun_induction joinWith sep ps with
  | case1 => cases hp
  | case2 q =>
    rw [List.mem_singleton] at hp
    exact hp ▸ hne
  | case3 q ps => exact List.append_ne_nil_of_right_ne_nil _ (List.cons_ne_nil _ _)

namespace Path

/-! ## Pieces and parts -/

/-- The pieces of a path that is not absolute, from the texts between its slashes. -/
def relativePieces : List Text → List Piece
  | ['.'] :: rest => ⟨['.'], some .current⟩ :: rest.map Piece.ofText
  | all => all.map Piece.ofText

theorem map_text_map_ofText (ts : List Text) : (ts.map Piece.ofText).map Piece.text = ts := by
  rw [List.map_map]
  exact List.map_id ts

theorem eq_ofText_of_mem_map {ts : List Text} {piece : Piece} (h : piece ∈ ts.map Piece.ofText) :
    piece = Piece.ofText piece.text := by
  obtain ⟨t, -, rfl⟩ := List.mem_map.mp h
  rfl

theorem map_ofText_map_text {kept : List Piece} {ts : List Text}
    (h : kept <+: ts.map Piece.ofText) : (kept.map Piece.text).map Piece.ofText = kept := by
  rw [List.map_map]
  refine (List.map_congr_left fun piece hpiece => ?_).trans (List.map_id kept)
  exact (eq_ofText_of_mem_map (h.subset hpiece)).symm

theorem map_text_relativePieces (ts : List Text) : (relativePieces ts).map Piece.text = ts := by
  unfold relativePieces
  split
  next rest => rw [List.map_cons, map_text_map_ofText]
  next => exact map_text_map_ofText ts

/-- The first pieces of a path that is not absolute are the pieces of their texts. -/
theorem relativePieces_map_text {kept : List Piece} {ts : List Text}
    (h : kept <+: relativePieces ts) (hne : kept ≠ []) :
    relativePieces (kept.map Piece.text) = kept := by
  obtain ⟨piece, rest, rfl⟩ := List.exists_cons_of_ne_nil hne
  unfold relativePieces at h
  split at h
  next =>
    obtain ⟨rfl, hrest⟩ := List.cons_prefix_cons.mp h
    rw [List.map_cons, relativePieces, map_ofText_map_text hrest]
  next hcurrent =>
    have htexts := map_ofText_map_text h
    cases ts with
    | nil => exact absurd (List.prefix_nil.mp h) hne
    | cons t ts =>
      obtain ⟨rfl, -⟩ := List.cons_prefix_cons.mp h
      rw [relativePieces.eq_2 _ fun u hu => hcurrent ts ?_, htexts]
      rw [(List.cons.inj hu).1.symm]
      rfl

theorem pieces_of_isAbsolute {p : Path} (h : p.isAbsolute = true) :
    p.pieces = (Text.splitOn '/' p.text.tail).map Piece.ofText := by
  rw [pieces, if_pos h]

theorem pieces_of_not_isAbsolute {p : Path} (h : p.isAbsolute = false) :
    p.pieces = relativePieces (Text.splitOn '/' p.text) := by
  rw [pieces, h]
  rfl

/-- The texts of the pieces are what stands between the slashes. -/
theorem map_text_pieces (p : Path) :
    p.pieces.map Piece.text =
      Text.splitOn '/' (if p.isAbsolute then p.text.tail else p.text) := by
  cases h : p.isAbsolute with
  | true => rw [pieces_of_isAbsolute h, map_text_map_ofText, if_pos rfl]
  | false =>
    rw [pieces_of_not_isAbsolute h, map_text_relativePieces, if_neg Bool.false_ne_true]

theorem notMem_text_of_mem_pieces {p : Path} {piece : Piece} (h : piece ∈ p.pieces) :
    '/' ∉ piece.text := by
  have hmem : piece.text ∈ p.pieces.map Piece.text := List.mem_map_of_mem h
  rw [map_text_pieces] at hmem
  exact Text.not_mem_of_mem_splitOn hmem

/-- Only the `.` that a path begins with stands for something else there than further on. -/
theorem eq_ofText_of_mem_pieces {p : Path} {piece : Piece} (h : piece ∈ p.pieces)
    (hcurrent : piece.part? ≠ some .current) : piece = Piece.ofText piece.text := by
  cases habsolute : p.isAbsolute with
  | true =>
    rw [pieces_of_isAbsolute habsolute] at h
    exact eq_ofText_of_mem_map h
  | false =>
    rw [pieces_of_not_isAbsolute habsolute, relativePieces.eq_def] at h
    split at h
    next =>
      rcases List.mem_cons.mp h with rfl | h
      · exact absurd rfl hcurrent
      · exact eq_ofText_of_mem_map h
    next => exact eq_ofText_of_mem_map h

/-- The path that pieces make. -/
def ofPieces (absolute : Bool) (kept : List Piece) : Path :=
  ⟨(if absolute then ['/'] else []) ++ Text.joinWith '/' (kept.map Piece.text)⟩

/-- The parts that pieces stand for. -/
def partsOf (absolute : Bool) (kept : List Piece) : List Part :=
  (if absolute then [.root] else []) ++ kept.filterMap Piece.part?

theorem parts_eq (p : Path) : p.parts = partsOf p.isAbsolute p.pieces := rfl

section OfPieces

variable {p : Path} {kept : List Piece}

/-- A path that the first pieces of another one make is absolute if that is. -/
theorem isAbsolute_ofPieces (h : kept <+: p.pieces) :
    (ofPieces p.isAbsolute kept).isAbsolute = p.isAbsolute := by
  cases habsolute : p.isAbsolute with
  | true => rfl
  | false =>
    have hprefix : Text.joinWith '/' (kept.map Piece.text) <+: p.text := by
      have hall := Text.joinWith_prefix '/' (h.map Piece.text)
      rwa [map_text_pieces, habsolute, if_neg Bool.false_ne_true, Text.joinWith_splitOn] at hall
    have hstart : Text.startsWith '/' p.text = false := habsolute
    show Text.startsWith '/' (Text.joinWith '/' (kept.map Piece.text)) = false
    cases htext : Text.joinWith '/' (kept.map Piece.text) with
    | nil => rfl
    | cons c rest =>
      rw [htext] at hprefix
      obtain ⟨more, hmore⟩ := hprefix
      rw [← hmore] at hstart
      exact hstart

/-- **The first pieces of a path make a path with these pieces.** -/
theorem pieces_ofPieces (h : kept <+: p.pieces) (hne : kept ≠ []) :
    (ofPieces p.isAbsolute kept).pieces = kept := by
  have hsplit : Text.splitOn '/' (Text.joinWith '/' (kept.map Piece.text)) =
      kept.map Piece.text := by
    refine Text.splitOn_joinWith (by simpa using hne) fun t ht => ?_
    obtain ⟨piece, hpiece, rfl⟩ := List.mem_map.mp ht
    exact notMem_text_of_mem_pieces (h.subset hpiece)
  have hsame := isAbsolute_ofPieces h
  cases habsolute : p.isAbsolute with
  | true =>
    rw [habsolute] at hsame
    rw [pieces_of_isAbsolute habsolute] at h
    rw [pieces_of_isAbsolute hsame]
    show (Text.splitOn '/' (Text.joinWith '/' (kept.map Piece.text))).map Piece.ofText = kept
    rw [hsplit, map_ofText_map_text h]
  | false =>
    rw [habsolute] at hsame
    rw [pieces_of_not_isAbsolute habsolute] at h
    rw [pieces_of_not_isAbsolute hsame]
    show relativePieces (Text.splitOn '/' (Text.joinWith '/' (kept.map Piece.text))) = kept
    rw [hsplit, relativePieces_map_text h hne]

theorem parts_ofPieces (h : kept <+: p.pieces) :
    (ofPieces p.isAbsolute kept).parts = partsOf p.isAbsolute kept := by
  rw [parts_eq, isAbsolute_ofPieces h]
  by_cases hne : kept = []
  · rw [hne]
    cases p.isAbsolute <;> rfl
  · rw [pieces_ofPieces h hne]

end OfPieces

/-! ## Directories -/

theorem ofReversed_eq (absolute : Bool) (reversed : List Piece) :
    ofReversed absolute reversed =
      ofPieces absolute (reversed.dropWhile Piece.isIdle).reverse := rfl

/-- Idle pieces stand for no part. -/
theorem partsOf_dropWhile (absolute : Bool) (reversed : List Piece) :
    partsOf absolute (reversed.dropWhile Piece.isIdle).reverse =
      partsOf absolute reversed.reverse := by
  induction reversed with
  | nil => rfl
  | cons piece before ih =>
    by_cases hidle : piece.isIdle = true
    · have hnone : piece.part? = none := Option.isNone_iff_eq_none.mp hidle
      rw [List.dropWhile_cons_of_pos hidle, ih, partsOf, partsOf, List.reverse_cons,
        List.filterMap_append, List.filterMap_cons_none hnone, List.filterMap_nil,
        List.append_nil]
    · rw [List.dropWhile_cons_of_neg hidle]

variable {p dir : Path}

theorem prefix_of_dropWhile {reversed : List Piece} (h : reversed.reverse <+: p.pieces) :
    (reversed.dropWhile Piece.isIdle).reverse <+: p.pieces :=
  (List.reverse_prefix.mpr (List.dropWhile_suffix _)).trans h

/-- A path that the first pieces of another one make stands for their parts. -/
theorem parts_ofReversed {reversed : List Piece} (h : reversed.reverse <+: p.pieces) :
    (ofReversed p.isAbsolute reversed).parts = partsOf p.isAbsolute reversed.reverse := by
  rw [ofReversed_eq, parts_ofPieces (prefix_of_dropWhile h), partsOf_dropWhile]

theorem prefix_of_reverse_cons {piece : Piece} {before : List Piece}
    (h : (piece :: before).reverse <+: p.pieces) : before.reverse <+: p.pieces := by
  rw [List.reverse_cons] at h
  exact (List.prefix_append _ _).trans h

theorem partsOf_reverse_cons (absolute : Bool) (piece : Piece) (before : List Piece) :
    partsOf absolute (piece :: before).reverse =
      partsOf absolute before.reverse ++ piece.part?.toList := by
  rw [partsOf, partsOf, List.reverse_cons, List.filterMap_append, List.append_assoc]
  cases h : piece.part? with
  | none => rw [List.filterMap_cons_none h]; rfl
  | some part => rw [List.filterMap_cons_some h]; rfl

/-- A directory above the path that pieces make has fewer parts, which those of the path begin
with. -/
theorem exists_parts_append_of_reversed {reversed : List Piece}
    (h : reversed.reverse <+: p.pieces)
    (hdir : dir ∈ ancestorsOfReversed p.isAbsolute reversed) :
    ∃ part, dir.parts ++ [part] <+: partsOf p.isAbsolute reversed.reverse := by
  induction reversed with
  | nil => cases hdir
  | cons piece before ih =>
    have hbefore := prefix_of_reverse_cons h
    rw [partsOf_reverse_cons]
    rw [ancestorsOfReversed] at hdir
    split at hdir
    next =>
      obtain ⟨part, hpart⟩ := ih hbefore hdir
      exact ⟨part, hpart.trans (List.prefix_append _ _)⟩
    next hidle =>
      rcases List.mem_cons.mp hdir with rfl | hdir
      · obtain ⟨part, hpart⟩ : ∃ part, piece.part? = some part := by
          cases hpart : piece.part? with
          | none => exact absurd (Option.isNone_iff_eq_none.mpr hpart) hidle
          | some part => exact ⟨part, rfl⟩
        rw [parts_ofReversed hbefore, hpart]
        exact ⟨part, List.prefix_rfl⟩
      · obtain ⟨part, hpart⟩ := ih hbefore hdir
        exact ⟨part, hpart.trans (List.prefix_append _ _)⟩

theorem exists_suffix_of_mem {absolute : Bool} {reversed : List Piece}
    (h : dir ∈ ancestorsOfReversed absolute reversed) :
    ∃ before, before <:+ reversed ∧ dir = ofReversed absolute before := by
  induction reversed with
  | nil => cases h
  | cons piece before ih =>
    rw [ancestorsOfReversed] at h
    split at h
    next =>
      obtain ⟨further, hsuffix, hdir⟩ := ih h
      exact ⟨further, hsuffix.trans (List.suffix_cons piece before), hdir⟩
    next =>
      rcases List.mem_cons.mp h with hdir | h
      · exact ⟨before, List.suffix_cons piece before, hdir⟩
      · obtain ⟨further, hsuffix, hdir⟩ := ih h
        exact ⟨further, hsuffix.trans (List.suffix_cons piece before), hdir⟩

/-- A directory above a path is made by some of the first pieces of the path. -/
theorem exists_ofReversed_of_mem (h : dir ∈ p.ancestors) :
    ∃ before, before.reverse <+: p.pieces ∧ dir = ofReversed p.isAbsolute before := by
  obtain ⟨before, hsuffix, hdir⟩ := exists_suffix_of_mem h
  have hprefix := List.reverse_prefix.mpr hsuffix
  rw [List.reverse_reverse] at hprefix
  exact ⟨before, hprefix, hdir⟩

theorem reverse_reverse_prefix : p.pieces.reverse.reverse <+: p.pieces :=
  ⟨[], by rw [List.append_nil, List.reverse_reverse]⟩

/-- **A directory above a path has fewer parts, which the path begins with.** -/
theorem exists_parts_append (h : dir ∈ p.ancestors) : ∃ part, dir.parts ++ [part] <+: p.parts := by
  have hpart := exists_parts_append_of_reversed reverse_reverse_prefix h
  rwa [List.reverse_reverse] at hpart

/-- **Of two directories above a path, the one further up has fewer parts.** -/
theorem pairwise_ancestors (p : Path) :
    p.ancestors.Pairwise fun dir above => above.parts.length < dir.parts.length := by
  have hall : ∀ reversed : List Piece, reversed.reverse <+: p.pieces →
      (ancestorsOfReversed p.isAbsolute reversed).Pairwise fun dir above =>
        above.parts.length < dir.parts.length := by
    intro reversed
    induction reversed with
    | nil => exact fun _ => List.Pairwise.nil
    | cons piece before ih =>
      intro h
      have hbefore := prefix_of_reverse_cons h
      rw [ancestorsOfReversed]
      split
      next => exact ih hbefore
      next =>
        refine List.pairwise_cons.mpr ⟨fun above habove => ?_, ih hbefore⟩
        obtain ⟨part, hpart⟩ := exists_parts_append_of_reversed hbefore habove
        have hlength := hpart.length_le
        rw [List.length_append, List.length_singleton] at hlength
        rw [parts_ofReversed hbefore]
        exact hlength
  exact hall _ reverse_reverse_prefix

/-- **A path can be seen from each of the directories above it.** -/
theorem exists_relativeTo? (h : dir ∈ p.ancestors) : ∃ seen, p.relativeTo? dir = some seen := by
  obtain ⟨part, hpart⟩ := exists_parts_append h
  have hprefix : dir.parts.isPrefixOf p.parts = true :=
    List.isPrefixOf_iff_prefix.mpr ((List.prefix_append _ _).trans hpart)
  rw [relativeTo?, if_pos hprefix]
  split
  · exact ⟨_, rfl⟩
  · exact ⟨_, rfl⟩

end Path
end StyleAudit
