import StyleAudit.Text.Split

/-!
# Paths

A `Path` is a text, shown as it was given.  What it means is the list of its *parts*: the
pieces between slashes, without the empty ones and without `.`, except that a `.` at the very
start is a part and that a slash at the very start is one, the root.  Paths that have the
same parts are the same file, and paths are compared part by part.

A piece that stands for no part is *idle*.  Idle pieces matter only where a path is cut: the
directory above a path, and the path as seen from a directory, keep the pieces in their
middle as they were given and lose the idle ones at the cut and at the end.

* `ancestors` --- the directories above a path, from the nearest up;
* `relativeTo?` --- a path as seen from one of these.
-/

namespace StyleAudit

/-- A path as it was given. -/
structure Path where
  text : Text
  deriving DecidableEq, Repr, Inhabited

namespace Path

/-! ## Parts -/

/-- What a piece of a path stands for. -/
inductive Part where
  /-- The slash that an absolute path begins with. -/
  | root
  /-- The `.` that a path begins with. -/
  | current
  /-- `..` -/
  | parent
  | name (name : Text)
  deriving DecidableEq, Repr

/-- The part as a list of numbers; parts are ordered like these lists. -/
def Part.code : Part → List Nat
  | root => [0]
  | current => [1]
  | parent => [2]
  | name n => 3 :: n.map Char.toNat

instance : Ord Part := ⟨compareOn Part.code⟩

theorem Part.code_injective {a b : Part} (h : a.code = b.code) : a = b := by
  cases a <;> cases b <;> simp_all [Part.code]
  exact List.map_inj_right (fun _ _ h => Char.toNat_inj.1 h) |>.1 h

/-- A piece of a path with the part it stands for; an idle piece stands for none. -/
structure Piece where
  text : Text
  part? : Option Part
  deriving DecidableEq, Repr

/-- Whether the piece stands for no part. -/
def Piece.isIdle (p : Piece) : Bool := p.part?.isNone

/-- A piece that is not the first of a relative path. -/
def Piece.ofText (t : Text) : Piece :=
  ⟨t, if t = [] ∨ t = ['.'] then none else if t = ['.', '.'] then some .parent
    else some (.name t)⟩

/-- Whether the path begins with a slash. -/
def isAbsolute (p : Path) : Bool := p.text.startsWith '/'

/-- The pieces of the path behind the root. -/
def pieces (p : Path) : List Piece :=
  if p.isAbsolute then (Text.splitOn '/' p.text.tail).map Piece.ofText
  else
    match Text.splitOn '/' p.text with
    | ['.'] :: rest => ⟨['.'], some .current⟩ :: rest.map Piece.ofText
    | all => all.map Piece.ofText

/-- The parts of the path. -/
def parts (p : Path) : List Part :=
  (if p.isAbsolute then [.root] else []) ++ p.pieces.filterMap Piece.part?

/-- Whether two paths have the same parts. -/
def same (p q : Path) : Bool := p.parts == q.parts

/-- The order of paths: part by part. -/
def cmp (p q : Path) : Ordering := compare p.parts q.parts

/-! ## Names -/

/-- The name of the file or directory: the last part, if that is a name. -/
def fileName? (p : Path) : Option Text :=
  match p.parts.getLast? with
  | some (.name n) => some n
  | _ => none

/-- The extension of a file name: what stands behind its last point, unless that point is
its first character. -/
def extensionOf? (name : Text) : Option Text :=
  let behind := (name.reverse.takeWhile (· != '.')).reverse
  if behind.length + 1 < name.length then some behind else none

/-- The extension of the file that the path names. -/
def extension? (p : Path) : Option Text := p.fileName?.bind extensionOf?

/-! ## Putting together and cutting -/

/-- The path of something inside a directory. -/
def join (dir : Path) (name : Text) : Path :=
  if Text.startsWith '/' name then ⟨name⟩
  else if dir.text.isEmpty || dir.text.endsIn '/' then ⟨dir.text ++ name⟩
  else ⟨dir.text ++ '/' :: name⟩

/-- The path that pieces in reverse order make, without the idle pieces at its end. -/
def ofReversed (absolute : Bool) (pieces : List Piece) : Path :=
  let kept := (pieces.dropWhile Piece.isIdle).reverse
  ⟨(if absolute then ['/'] else []) ++ Text.joinWith '/' (kept.map Piece.text)⟩

/-- The directories above the path that pieces in reverse order make. -/
def ancestorsOfReversed (absolute : Bool) : List Piece → List Path
  | [] => []
  | piece :: before =>
    if piece.isIdle then ancestorsOfReversed absolute before
    else ofReversed absolute before :: ancestorsOfReversed absolute before

/-- The directories above a path, from the nearest up.  Above the first part of a relative
path there is the empty path, and above the root there is nothing. -/
def ancestors (p : Path) : List Path := ancestorsOfReversed p.isAbsolute p.pieces.reverse

/-- The pieces behind the first `n` parts. -/
def dropParts : Nat → List Piece → List Piece
  | 0, ps => ps
  | _ + 1, [] => []
  | n + 1, p :: ps => if p.isIdle then dropParts (n + 1) ps else dropParts n ps

/-- The path as seen from a directory, if its parts begin with those of the directory. -/
def relativeTo? (p dir : Path) : Option Path :=
  if dir.parts.isPrefixOf p.parts then
    if dir.parts.isEmpty then some (ofReversed p.isAbsolute p.pieces.reverse)
    else
      let n := dir.parts.length - if p.isAbsolute then 1 else 0
      let rest := (dropParts n p.pieces).dropWhile Piece.isIdle
      some (ofReversed false rest.reverse)
  else none

end Path
end StyleAudit
